import Mathlib.Data.Nat.Digits.Lemmas

/-! JSON texts: the grammar of RFC 8259 as a parser, and how long what it reads can be. -/
namespace NetworkLabs.Json

/-- A text or string as UTF-16 code units, which is what the escapes stand for. -/
abbrev Text := List UInt16

/-- The code units of an ASCII text. -/
def text (s : String) : Text := s.toList.map fun c => c.toNat.toUInt16

def quote : UInt16 := 34
def comma : UInt16 := 44
def colon : UInt16 := 58
def beginArray : UInt16 := 91
def backslash : UInt16 := 92
def endArray : UInt16 := 93
def beginObject : UInt16 := 123
def endObject : UInt16 := 125

/-- A number is kept as it is written, and an object with its members in order. -/
inductive Value
  | null
  | bool (b : Bool)
  | number (lexeme : Text)
  | string (s : Text)
  | array (values : List Value)
  | object (members : List (Text × Value))

namespace Value

/-- The text of a scalar, or of the one element of an array. -/
def text? : Value → Option Text
  | .null => none
  | .bool b => some (if b then text "true" else text "false")
  | .number lexeme => some lexeme
  | .string s => some s
  | .array [v] => v.text?
  | .array _ => none
  | .object _ => none

/-- The last member of a name counts. -/
def member? (name : Text) : Value → Option Value
  | .object members => (members.reverse.find? fun m => m.1 = name).map Prod.snd
  | _ => none

end Value

/-! ## The parser -/

def isSpace (c : UInt16) : Bool := c = 32 || c = 9 || c = 10 || c = 13

def skip (t : Text) : Text := t.dropWhile isSpace

/-- One structural character, and the white space before it. -/
def next (c : UInt16) (t : Text) : Option Text :=
  match skip t with
  | [] => none
  | d :: rest => if d = c then some rest else none

/-- What one letter after a backslash stands for. -/
def escape (c : UInt16) : Option UInt16 :=
  if c = quote then some quote
  else if c = backslash then some backslash
  else if c = 47 then some 47    -- a slash
  else if c = 98 then some 8     -- b, a backspace
  else if c = 102 then some 12   -- f, a form feed
  else if c = 110 then some 10   -- n, a line feed
  else if c = 114 then some 13   -- r, a carriage return
  else if c = 116 then some 9    -- t, a tab
  else none

def hexDigit (c : UInt16) : Option UInt16 :=
  if 48 ≤ c ∧ c ≤ 57 then some (c - 48)
  else if 65 ≤ c ∧ c ≤ 70 then some (c - 55)
  else if 97 ≤ c ∧ c ≤ 102 then some (c - 87)
  else none

/-- The code unit of four hexadecimal digits. -/
def hexUnit (a b c d : UInt16) : Option UInt16 :=
  (hexDigit a).bind fun a => (hexDigit b).bind fun b => (hexDigit c).bind fun c =>
    (hexDigit d).map fun d => ((a * 16 + b) * 16 + c) * 16 + d

/-- The rest of a string, after its opening quotation mark. -/
def string : Text → Option (Text × Text)
  | [] => none
  | c :: rest =>
    if c = quote then some ([], rest)
    else if c = backslash then
      match rest with
      | [] => none
      | e :: rest =>
        if e = 117 then
          match rest with
          | x :: y :: z :: u :: rest =>
            (hexUnit x y z u).bind fun d => (string rest).map fun (s, rest) => (d :: s, rest)
          | _ => none
        else (escape e).bind fun d => (string rest).map fun (s, rest) => (d :: s, rest)
    else if c < 32 then none
    else (string rest).map fun (s, rest) => (c :: s, rest)

def isDigit (c : UInt16) : Bool := 48 ≤ c ∧ c ≤ 57

def afterDigits : Text → Option Text
  | [] => none
  | c :: rest => if isDigit c then some (rest.dropWhile isDigit) else none

/-- No other digit follows a leading zero. -/
def afterInteger : Text → Option Text
  | [] => none
  | c :: rest => if c = 48 then some rest else afterDigits (c :: rest)

/-- One character, if it is there. -/
def dropOne (test : UInt16 → Bool) : Text → Text
  | [] => []
  | c :: rest => if test c then rest else c :: rest

/-- A part of a number that begins with a mark, if it is there. -/
def afterPart (mark : UInt16 → Bool) (part : Text → Option Text) : Text → Option Text
  | [] => some []
  | c :: rest => if mark c then part rest else some (c :: rest)

def afterFraction : Text → Option Text := afterPart (fun c => c = 46) afterDigits

def afterExponent : Text → Option Text :=
  afterPart (fun c => c = 69 || c = 101) fun t =>
    afterDigits (dropOne (fun c => c = 43 || c = 45) t)

def afterNumber (t : Text) : Option Text :=
  (afterInteger (dropOne (fun c => c = 45) t)).bind fun rest =>
    (afterFraction rest).bind afterExponent

def number (t : Text) : Option (Text × Text) :=
  (afterNumber t).map fun rest => (t.take (t.length - rest.length), rest)

/-- A value that holds no others, and is no string. -/
def scalar (t : Text) : Option (Value × Text) :=
  if (text "null").isPrefixOf t then some (.null, t.drop 4)
  else if (text "true").isPrefixOf t then some (.bool true, t.drop 4)
  else if (text "false").isPrefixOf t then some (.bool false, t.drop 5)
  else (number t).map fun (lexeme, rest) => (.number lexeme, rest)

/-- The name of a member, up to its colon. -/
def name (t : Text) : Option (Text × Text) :=
  (next quote t).bind fun rest => (string rest).bind fun (s, rest) =>
    (next colon rest).map fun rest => (s, rest)

mutual

def value : Nat → Text → Option (Value × Text)
  | 0, _ => none
  | fuel + 1, t =>
    match skip t with
    | [] => none
    | c :: rest =>
      if c = quote then (string rest).map fun (s, rest) => (.string s, rest)
      else if c = beginObject then
        match next endObject rest with
        | some rest => some (.object [], rest)
        | none => (members fuel rest).map fun (ms, rest) => (.object ms, rest)
      else if c = beginArray then
        match next endArray rest with
        | some rest => some (.array [], rest)
        | none => (elements fuel rest).map fun (vs, rest) => (.array vs, rest)
      else scalar (c :: rest)

/-- One member at least, up to the end of the object. -/
def members : Nat → Text → Option (List (Text × Value) × Text)
  | 0, _ => none
  | fuel + 1, t =>
    (name t).bind fun (s, rest) => (value fuel rest).bind fun (v, rest) =>
      match next comma rest with
      | some rest => (members fuel rest).map fun (ms, rest) => ((s, v) :: ms, rest)
      | none => (next endObject rest).map fun rest => ([(s, v)], rest)

/-- One element at least, up to the end of the array. -/
def elements : Nat → Text → Option (List Value × Text)
  | 0, _ => none
  | fuel + 1, t =>
    (value fuel t).bind fun (v, rest) =>
      match next comma rest with
      | some rest => (elements fuel rest).map fun (vs, rest) => (v :: vs, rest)
      | none => (next endArray rest).map fun rest => ([v], rest)

end

/-- A text is one value, between white space. -/
def parse (t : Text) : Option Value :=
  (value (2 * t.length + 1) t).bind fun (v, rest) => if skip rest = [] then some v else none

/-- Characters that stand for themselves in a string. -/
def Plain (s : Text) : Prop := ∀ c ∈ s, c ≠ quote ∧ c ≠ backslash ∧ 32 ≤ c

instance (s : Text) : Decidable (Plain s) := List.decidableBAll _ s

/-! ## What the parser takes off a text -/

section Lengths

variable {t rest s : Text} {c : UInt16} {v : Value} {fuel : Nat}

theorem skip_length (t : Text) : (skip t).length ≤ t.length :=
  (List.dropWhile_sublist _).length_le

theorem next_length (h : next c t = some rest) : rest.length < t.length := by
  have hskip := skip_length t
  unfold next at h
  split at h
  · cases h
  · rename_i d tail htail
    rw [htail, List.length_cons] at hskip
    split at h <;> cases h
    omega

/-- A string is no longer than its text. -/
theorem string_length (h : string t = some (s, rest)) :
    s.length + rest.length + 1 ≤ t.length := by
  fun_induction string t generalizing s with
  | case1 => cases h
  | case2 tail =>
    cases h
    simp only [List.length_nil, List.length_cons]
    omega
  | case3 => cases h
  | case4 x y z u tail hne ih =>
    obtain ⟨d, -, h⟩ := Option.bind_eq_some_iff.mp h
    obtain ⟨⟨s', _⟩, hs, ⟨⟩⟩ := Option.map_eq_some_iff.mp h
    have hle := ih hs
    simp only [List.length_cons]
    omega
  | case5 => cases h
  | case6 e tail hu hne ih =>
    obtain ⟨d, -, h⟩ := Option.bind_eq_some_iff.mp h
    obtain ⟨⟨s', _⟩, hs, ⟨⟩⟩ := Option.map_eq_some_iff.mp h
    have hle := ih hs
    simp only [List.length_cons]
    omega
  | case7 => cases h
  | case8 c tail hquote hback hcontrol ih =>
    obtain ⟨⟨s', _⟩, hs, ⟨⟩⟩ := Option.map_eq_some_iff.mp h
    have hle := ih hs
    simp only [List.length_cons]
    omega

/-- A string as long as its text was written without an escape. -/
theorem string_cases (h : string t = some (s, rest)) :
    (t = s ++ quote :: rest ∧ Plain s) ∨ s.length + rest.length + 1 < t.length := by
  fun_induction string t generalizing s with
  | case1 => cases h
  | case2 tail =>
    cases h
    exact .inl ⟨rfl, by simp [Plain]⟩
  | case3 => cases h
  | case4 x y z u tail hne ih =>
    obtain ⟨d, -, h⟩ := Option.bind_eq_some_iff.mp h
    obtain ⟨⟨s', _⟩, hs, ⟨⟩⟩ := Option.map_eq_some_iff.mp h
    have hle := string_length hs
    right
    simp only [List.length_cons]
    omega
  | case5 => cases h
  | case6 e tail hu hne ih =>
    obtain ⟨d, -, h⟩ := Option.bind_eq_some_iff.mp h
    obtain ⟨⟨s', _⟩, hs, ⟨⟩⟩ := Option.map_eq_some_iff.mp h
    have hle := string_length hs
    right
    simp only [List.length_cons]
    omega
  | case7 => cases h
  | case8 c tail hquote hback hcontrol ih =>
    obtain ⟨⟨s', _⟩, hs, ⟨⟩⟩ := Option.map_eq_some_iff.mp h
    rcases ih hs with ⟨rfl, hplain⟩ | hlt
    · refine .inl ⟨rfl, ?_⟩
      exact List.forall_mem_cons.mpr ⟨⟨hquote, hback, Nat.le_of_not_lt hcontrol⟩, hplain⟩
    · right
      simp only [List.length_cons]
      omega

/-- Plain characters are read back as they stand. -/
theorem string_of_plain (h : Plain s) (rest : Text) :
    string (s ++ quote :: rest) = some (s, rest) := by
  induction s with
  | nil =>
    rw [List.nil_append, string.eq_def]
    exact if_pos rfl
  | cons c s ih =>
    obtain ⟨⟨hquote, hback, hcontrol⟩, hs⟩ := List.forall_mem_cons.mp h
    have hle : ¬ c < 32 := Nat.not_lt_of_ge hcontrol
    rw [List.cons_append, string.eq_def]
    simp only [if_neg hquote, if_neg hback, if_neg hle, ih hs, Option.map_some]

theorem afterDigits_length (h : afterDigits t = some rest) : rest.length ≤ t.length := by
  unfold afterDigits at h
  split at h
  · cases h
  · split at h <;> cases h
    have hle := (List.dropWhile_sublist (l := ‹List UInt16›) isDigit).length_le
    exact Nat.le_succ_of_le hle

theorem afterInteger_length (h : afterInteger t = some rest) : rest.length ≤ t.length := by
  unfold afterInteger at h
  split at h
  · cases h
  · split at h
    · cases h
      exact Nat.le_succ _
    · exact afterDigits_length h

theorem dropOne_length (test : UInt16 → Bool) (t : Text) : (dropOne test t).length ≤ t.length := by
  unfold dropOne
  split
  · exact Nat.le_refl _
  · split
    · exact Nat.le_succ _
    · exact Nat.le_refl _

theorem afterPart_length {mark : UInt16 → Bool} {part : Text → Option Text}
    (hpart : ∀ t rest, part t = some rest → rest.length ≤ t.length)
    (h : afterPart mark part t = some rest) : rest.length ≤ t.length := by
  unfold afterPart at h
  split at h
  · cases h
    exact Nat.le_refl _
  · split at h
    · exact Nat.le_succ_of_le (hpart _ _ h)
    · cases h
      exact Nat.le_refl _

theorem afterNumber_length (h : afterNumber t = some rest) : rest.length ≤ t.length := by
  obtain ⟨t₁, hinteger, h⟩ := Option.bind_eq_some_iff.mp h
  obtain ⟨t₂, hfraction, hexponent⟩ := Option.bind_eq_some_iff.mp h
  have h₀ := dropOne_length (fun c => c = 45) t
  have h₁ := afterInteger_length hinteger
  have h₂ := afterPart_length (fun _ _ => afterDigits_length) hfraction
  have h₃ := afterPart_length
    (fun _ _ hp => (afterDigits_length hp).trans (dropOne_length _ _)) hexponent
  omega

theorem number_length (h : number t = some (s, rest)) : s.length + rest.length = t.length := by
  obtain ⟨tail, hnumber, ⟨⟩⟩ := Option.map_eq_some_iff.mp h
  have hle := afterNumber_length hnumber
  rw [List.length_take]
  omega

theorem name_length (h : name t = some (s, rest)) : s.length + rest.length + 3 ≤ t.length := by
  obtain ⟨t₁, hquote, h⟩ := Option.bind_eq_some_iff.mp h
  obtain ⟨⟨s', t₂⟩, hs, h⟩ := Option.bind_eq_some_iff.mp h
  obtain ⟨t₃, hcolon, ⟨⟩⟩ := Option.map_eq_some_iff.mp h
  have h₁ := next_length hquote
  have h₂ := string_length hs
  have h₃ := next_length hcolon
  omega

/-- What is left of a text after a value is no longer than the text less the value's own text. -/
def Within (t : Text) (v : Value) (rest : Text) : Prop :=
  rest.length ≤ t.length ∧ ∀ s, v.text? = some s → s.length + rest.length ≤ t.length

/-- A literal name, whose text is `word`. -/
theorem literal_within {word : Text} (hword : word.isPrefixOf t = true)
    (hv : ∀ s, v.text? = some s → s.length = word.length) : Within t v (t.drop word.length) := by
  have hle := (List.isPrefixOf_iff_prefix.mp hword).length_le
  rw [Within, List.length_drop]
  refine ⟨Nat.sub_le _ _, ?_⟩
  intro s hs
  have hlen := hv s hs
  omega

theorem scalar_within (h : scalar t = some (v, rest)) : Within t v rest := by
  unfold scalar at h
  split at h
  · rename_i hword
    cases h
    exact literal_within hword (by simp [Value.text?])
  split at h
  · rename_i hword
    cases h
    exact literal_within hword (by simp [Value.text?])
  split at h
  · rename_i hword
    cases h
    exact literal_within hword (by simp [Value.text?])
  · obtain ⟨⟨lexeme, _⟩, hnumber, ⟨⟩⟩ := Option.map_eq_some_iff.mp h
    have hlen := number_length hnumber
    refine ⟨by omega, ?_⟩
    rintro s ⟨⟩
    exact hlen.le

theorem Within.of_le {t' : Text} (h : Within t' v rest) (hle : t'.length ≤ t.length) :
    Within t v rest :=
  ⟨h.1.trans hle, fun s hs => (h.2 s hs).trans hle⟩

theorem within_of_textless (hle : rest.length ≤ t.length) (hv : v.text? = none) :
    Within t v rest := by
  refine ⟨hle, ?_⟩
  rintro s hs
  cases hv.symm.trans hs

theorem Within.left {rest' : Text} (h : Within t v rest) (hle : rest'.length ≤ rest.length) :
    Within t v rest' := by
  refine ⟨hle.trans h.1, ?_⟩
  intro s hs
  have hlen := h.2 s hs
  omega

/-- The same of the members of an object and of the elements of an array. -/
structure Shortens (fuel : Nat) : Prop where
  ofValue : ∀ t v rest, value fuel t = some (v, rest) → Within t v rest
  ofMembers : ∀ t ms rest, members fuel t = some (ms, rest) → rest.length + 4 ≤ t.length ∧
    ∀ m ∈ ms, ∀ s, m.2.text? = some s → s.length + rest.length + 4 ≤ t.length
  ofElements : ∀ t vs rest, elements fuel t = some (vs, rest) → rest.length ≤ t.length ∧
    ∀ v ∈ vs, Within t v rest

/-- The text of an array is the text of its only element. -/
theorem array_within {c : UInt16} {tail : Text} {vs : List Value} (hle : rest.length ≤ tail.length)
    (hall : ∀ v ∈ vs, Within tail v rest) : Within (c :: tail) (.array vs) rest := by
  rw [Within, List.length_cons]
  refine ⟨by omega, ?_⟩
  intro s hs
  match vs, hs with
  | [v], hs =>
    have hv := (hall v List.mem_cons_self).2 s hs
    omega

theorem Shortens.value_step (ih : Shortens fuel) (h : value (fuel + 1) t = some (v, rest)) :
    Within t v rest := by
  refine Within.of_le ?_ (skip_length t)
  rw [value] at h
  split at h
  · cases h
  rename_i c tail htail
  rw [htail]
  split at h
  · obtain ⟨⟨s, _⟩, hs, ⟨⟩⟩ := Option.map_eq_some_iff.mp h
    have hle := string_length hs
    rw [Within, List.length_cons]
    refine ⟨by omega, ?_⟩
    rintro _ ⟨⟩
    omega
  split at h
  · split at h
    · rename_i hnext
      cases h
      have hlt := next_length hnext
      exact within_of_textless (by rw [List.length_cons]; omega) rfl
    · obtain ⟨⟨ms, _⟩, hms, ⟨⟩⟩ := Option.map_eq_some_iff.mp h
      have hle := (ih.ofMembers _ _ _ hms).1
      exact within_of_textless (by rw [List.length_cons]; omega) rfl
  split at h
  · split at h
    · rename_i hnext
      cases h
      have hlt := next_length hnext
      exact within_of_textless (by rw [List.length_cons]; omega) rfl
    · obtain ⟨⟨vs, _⟩, hvs, ⟨⟩⟩ := Option.map_eq_some_iff.mp h
      obtain ⟨hle, hall⟩ := ih.ofElements _ _ _ hvs
      exact array_within hle hall
  · exact scalar_within h

theorem Shortens.members_step (ih : Shortens fuel) {ms : List (Text × Value)}
    (h : members (fuel + 1) t = some (ms, rest)) : rest.length + 4 ≤ t.length ∧
      ∀ m ∈ ms, ∀ s, m.2.text? = some s → s.length + rest.length + 4 ≤ t.length := by
  rw [members] at h
  obtain ⟨⟨s, t₁⟩, hname, h⟩ := Option.bind_eq_some_iff.mp h
  obtain ⟨⟨v, t₂⟩, hv, h⟩ := Option.bind_eq_some_iff.mp h
  have hlen := name_length hname
  obtain ⟨hle, htext⟩ := ih.ofValue _ _ _ hv
  cases hcomma : next comma t₂ with
  | some t₃ =>
    simp only [hcomma] at h
    obtain ⟨⟨ms', _⟩, hms, ⟨⟩⟩ := Option.map_eq_some_iff.mp h
    obtain ⟨hle', hall⟩ := ih.ofMembers _ _ _ hms
    have hlt := next_length hcomma
    dsimp only
    refine ⟨by omega, List.forall_mem_cons.mpr ⟨?_, ?_⟩⟩
    · intro s' hs'
      have hv' := htext s' hs'
      omega
    · intro m hm s' hs'
      have hm' := hall m hm s' hs'
      omega
  | none =>
    simp only [hcomma] at h
    obtain ⟨t₃, hend, ⟨⟩⟩ := Option.map_eq_some_iff.mp h
    have hlt := next_length hend
    refine ⟨by omega, List.forall_mem_singleton.mpr ?_⟩
    intro s' hs'
    have hv' := htext s' hs'
    omega

theorem Shortens.elements_step (ih : Shortens fuel) {vs : List Value}
    (h : elements (fuel + 1) t = some (vs, rest)) :
    rest.length ≤ t.length ∧ ∀ v ∈ vs, Within t v rest := by
  rw [elements] at h
  obtain ⟨⟨v, t₁⟩, hv, h⟩ := Option.bind_eq_some_iff.mp h
  have hwithin := ih.ofValue _ _ _ hv
  have hle := hwithin.1
  cases hcomma : next comma t₁ with
  | some t₂ =>
    simp only [hcomma] at h
    obtain ⟨⟨vs', _⟩, hvs, ⟨⟩⟩ := Option.map_eq_some_iff.mp h
    obtain ⟨hle', hall⟩ := ih.ofElements _ _ _ hvs
    have hlt := next_length hcomma
    dsimp only
    refine ⟨by omega, List.forall_mem_cons.mpr ⟨hwithin.left (by omega), ?_⟩⟩
    intro v' hv'
    exact (hall v' hv').of_le (by omega)
  | none =>
    simp only [hcomma] at h
    obtain ⟨t₂, hend, ⟨⟩⟩ := Option.map_eq_some_iff.mp h
    have hlt := next_length hend
    exact ⟨by omega, List.forall_mem_singleton.mpr (hwithin.left (by omega))⟩

theorem shortens (fuel : Nat) : Shortens fuel := by
  induction fuel with
  | zero => exact ⟨by simp [value], by simp [members], by simp [elements]⟩
  | succ fuel ih =>
    exact ⟨fun _ _ _ h => ih.value_step h, fun _ _ _ h => ih.members_step h,
      fun _ _ _ h => ih.elements_step h⟩

/-- With two steps of fuel for each character, more fuel changes nothing. -/
theorem value_succ (fuel : Nat) :
    (∀ t, 2 * t.length < fuel → value (fuel + 1) t = value fuel t) ∧
    (∀ t, 2 * t.length < fuel → members (fuel + 1) t = members fuel t) ∧
    (∀ t, 2 * t.length + 1 < fuel → elements (fuel + 1) t = elements fuel t) := by
  induction fuel with
  | zero => exact ⟨by simp, by simp, by simp⟩
  | succ fuel ih =>
    obtain ⟨ihValue, ihMembers, ihElements⟩ := ih
    refine ⟨?_, ?_, ?_⟩
    · intro t ht
      rw [value, value]
      split
      · rfl
      · rename_i c tail htail
        have hle := skip_length t
        rw [htail, List.length_cons] at hle
        rw [ihMembers tail (by omega), ihElements tail (by omega)]
    · intro t ht
      rw [members, members]
      apply Option.bind_congr
      rintro ⟨s, t₁⟩ hname
      have hlen := name_length hname
      dsimp only
      rw [ihValue t₁ (by omega)]
      apply Option.bind_congr
      rintro ⟨v, t₂⟩ hv
      have hle := ((shortens fuel).ofValue _ _ _ hv).1
      cases hcomma : next comma t₂ with
      | none => rfl
      | some t₃ =>
        have hlt := next_length hcomma
        simp only [ihMembers t₃ (by omega)]
    · intro t ht
      rw [elements, elements, ihValue t (by omega)]
      apply Option.bind_congr
      rintro ⟨v, t₁⟩ hv
      have hle := ((shortens fuel).ofValue _ _ _ hv).1
      cases hcomma : next comma t₁ with
      | none => simp only [hcomma]
      | some t₂ =>
        have hlt := next_length hcomma
        simp only [hcomma, ihElements t₂ (by omega)]

theorem value_of_le (hle : 2 * t.length < fuel) :
    value fuel t = value (2 * t.length + 1) t := by
  induction fuel, hle using Nat.le_induction with
  | base => rfl
  | succ fuel hle ih => rw [(value_succ fuel).1 t hle, ih]

theorem parse_eq (t : Text) (n : Nat) : parse t =
    (value (2 * t.length + 1 + n) t).bind fun (v, rest) =>
      if skip rest = [] then some v else none := by
  rw [value_of_le (by omega : 2 * t.length < 2 * t.length + 1 + n)]
  rfl

end Lengths

/-! ## Text that is put between the quotation marks as it stands -/

section Members

variable {t rest s key : Text} {c : UInt16} {fuel : Nat}

/-- The object of one string, whose text is not escaped. -/
def raw (key s : Text) : Text :=
  beginObject :: quote :: (key ++ quote :: colon :: quote :: (s ++ [quote, endObject]))

theorem next_self (h : isSpace c = false) (rest : Text) : next c (c :: rest) = some rest := by
  simp [next, skip, h]

theorem next_ne {d : UInt16} (h : isSpace d = false) (hne : d ≠ c) (rest : Text) :
    next c (d :: rest) = none := by
  simp [next, skip, h, hne]

theorem name_of_plain (h : Plain key) (rest : Text) :
    name (quote :: (key ++ quote :: colon :: rest)) = some (key, rest) := by
  rw [name, next_self (by decide), Option.bind_some, string_of_plain h]
  simp only [Option.bind_some, next_self (show isSpace colon = false by decide), Option.map_some]

theorem value_string (rest : Text) : value (fuel + 1) (quote :: rest) =
    (string rest).map fun (s, rest) => (.string s, rest) := by
  rw [value]
  rfl

theorem value_object (t : Text) : value (fuel + 1) (beginObject :: quote :: t) =
    (members fuel (quote :: t)).map fun (ms, rest) => (.object ms, rest) := by
  have hskip : skip (beginObject :: quote :: t) = beginObject :: quote :: t := rfl
  rw [value, hskip]
  simp only [next_ne (show isSpace quote = false by decide) (by decide : quote ≠ endObject)]
  rfl

theorem members_last (hk : Plain key) (hs : Plain s) :
    members (fuel + 2) (quote :: (key ++ quote :: colon :: quote :: (s ++ [quote, endObject]))) =
      some ([(key, .string s)], []) := by
  rw [members, name_of_plain hk]
  simp only [Option.bind_some, value_string, string_of_plain hs, Option.map_some,
    next_ne (show isSpace endObject = false by decide) (by decide : endObject ≠ comma),
    next_self (show isSpace endObject = false by decide)]

/-- What is read between the quotation marks is the first member, and others may follow. -/
theorem parse_raw (hk : Plain key) {v : Value} (h : parse (raw key s) = some v) :
    ∃ s' rest ms, string (s ++ [quote, endObject]) = some (s', rest) ∧
      v = .object ((key, .string s') :: ms) ∧
      ((∃ fuel rest' rest'', next comma rest = some rest' ∧
          members fuel rest' = some (ms, rest'')) ∨
        (ms = [] ∧ ∃ rest', next endObject rest = some rest')) := by
  rw [parse_eq _ 3] at h
  obtain ⟨⟨v', tail⟩, hv, h⟩ := Option.bind_eq_some_iff.mp h
  obtain ⟨-, ⟨⟩⟩ : skip tail = [] ∧ v' = v := by simpa using h
  generalize 2 * (raw key s).length + 1 = fuel at hv
  rw [raw, value_object] at hv
  obtain ⟨⟨ms, t₁⟩, hms, heq⟩ := Option.map_eq_some_iff.mp hv
  cases heq
  rw [members, name_of_plain hk] at hms
  simp only [Option.bind_some, value_string] at hms
  obtain ⟨⟨v₁, t₂⟩, hvalue, hms⟩ := Option.bind_eq_some_iff.mp hms
  obtain ⟨⟨s', rest⟩, hs, heq⟩ := Option.map_eq_some_iff.mp hvalue
  cases heq
  cases hcomma : next comma rest with
  | some rest' =>
    simp only [hcomma] at hms
    obtain ⟨⟨ms', rest''⟩, hms', heq⟩ := Option.map_eq_some_iff.mp hms
    cases heq
    exact ⟨s', rest, ms', hs, rfl, .inl ⟨fuel + 1, rest', rest'', hcomma, hms'⟩⟩
  | none =>
    simp only [hcomma] at hms
    obtain ⟨rest', hend, heq⟩ := Option.map_eq_some_iff.mp hms
    cases heq
    exact ⟨s', rest, [], hs, rfl, .inr ⟨rfl, _, hend⟩⟩

/-- The text that a name stands for in an object. -/
def member (key t : Text) : Option Text :=
  (parse t).bind fun v => (v.member? key).bind Value.text?

theorem member_last (ms : List (Text × Value))
    (h : parse t = some (.object (ms ++ [(key, .string s)]))) : member key t = some s := by
  simp [member, h, Value.member?, Value.text?]

theorem member_raw (hk : Plain key) (hs : Plain s) : member key (raw key s) = some s := by
  apply member_last []
  rw [parse_eq _ 2, raw, value_object, members_last hk hs]
  rfl

/-- Text that was read back as it was put there is plain: an escape shortens it, and whatever
follows a quotation mark in it is longer than the members it could hold. -/
theorem plain_of_member (hk : Plain key) (h : member key (raw key s) = some s) : Plain s := by
  obtain ⟨v, hv, h⟩ := Option.bind_eq_some_iff.mp h
  obtain ⟨v', hmember, htext⟩ := Option.bind_eq_some_iff.mp h
  obtain ⟨s', rest, ms, hs, rfl, hms⟩ := parse_raw hk hv
  have hlen := string_length hs
  simp only [List.length_append, List.length_cons, List.length_nil] at hlen
  have hfirst : v' = .string s' → Plain s := by
    rintro rfl
    obtain rfl : s' = s := Option.some.inj htext
    have hrest : 0 < rest.length := by
      rcases hms with ⟨_, _, _, hnext, -⟩ | ⟨-, _, hnext⟩ <;>
        exact Nat.zero_lt_of_lt (next_length hnext)
    rcases string_cases hs with ⟨-, hplain⟩ | hlt
    · exact hplain
    · simp only [List.length_append, List.length_cons, List.length_nil] at hlt
      omega
  obtain ⟨m, hfind, rfl⟩ := Option.map_eq_some_iff.mp hmember
  have hm := List.mem_reverse.mp (List.mem_of_find?_eq_some hfind)
  rcases List.mem_cons.mp hm with rfl | hm
  · exact hfirst rfl
  · rcases hms with ⟨fuel, rest', rest'', hcomma, hmembers⟩ | ⟨rfl, -⟩
    · have hlt := next_length hcomma
      have hle := ((shortens fuel).ofMembers _ _ _ hmembers).2 m hm s htext
      omega
    · cases hm

theorem member_raw_iff (hk : Plain key) : member key (raw key s) = some s ↔ Plain s :=
  ⟨plain_of_member hk, member_raw hk⟩

/-! ## Integers -/

def natural (n : Nat) : Text :=
  if n = 0 then [48] else (Nat.digits 10 n).reverse.map fun d => 48 + d.toUInt16

/-- An integer in decimal. -/
def integer (n : Int) : Text := if n < 0 then 45 :: natural n.natAbs else natural n.natAbs

/-- No number begins with a zero but zero itself. -/
theorem natural_cases (n : Nat) : natural n = [48] ∨
    ∃ c cs, natural n = c :: cs ∧ c ≠ 48 ∧ isDigit c = true ∧ ∀ d ∈ cs, isDigit d = true := by
  have digit : ∀ d < 10, isDigit (48 + d.toUInt16) = true := by decide
  have nonzero : ∀ d < 10, d ≠ 0 → 48 + d.toUInt16 ≠ 48 := by decide
  have hbase : ∀ d ∈ Nat.digits 10 n, d < 10 := fun d hd => Nat.digits_lt_base (by decide) hd
  by_cases hn : n = 0
  · exact .inl (if_pos hn)
  · right
    have hnil : Nat.digits 10 n ≠ [] := Nat.digits_ne_nil_iff_ne_zero.mpr hn
    have hlast := hbase _ (List.getLast_mem hnil)
    rw [natural, if_neg hn, ← List.dropLast_concat_getLast hnil, List.reverse_append,
      List.map_append]
    refine ⟨_, _, rfl, nonzero _ hlast (Nat.getLast_digit_ne_zero 10 hn), digit _ hlast, ?_⟩
    intro c hc
    obtain ⟨d, hd, rfl⟩ := List.mem_map.mp hc
    exact digit d (hbase d (List.mem_of_mem_dropLast (List.mem_reverse.mp hd)))

theorem afterInteger_natural (n : Nat) (h : isDigit c = false) (rest : Text) :
    afterInteger (natural n ++ c :: rest) = some (c :: rest) := by
  rcases natural_cases n with hn | ⟨d, ds, hn, hne, hd, hds⟩
  · rw [hn]
    rfl
  · rw [hn, List.cons_append, afterInteger, if_neg hne, afterDigits, if_pos hd,
      List.dropWhile_append_of_pos hds, List.dropWhile_cons_of_neg (by simp [h])]

/-- An integer begins with a digit or a minus, so it is no other value. -/
theorem integer_cases (n : Int) :
    ∃ c cs, integer n = c :: cs ∧ (c = 45 ∨ isDigit c = true) ∧
      dropOne (fun c => c = 45) (integer n ++ t) = natural n.natAbs ++ t := by
  have hnat : ∃ c cs, natural n.natAbs = c :: cs ∧ isDigit c = true := by
    rcases natural_cases n.natAbs with hn | ⟨d, ds, hn, -, hd, -⟩
    · exact ⟨48, [], hn, rfl⟩
    · exact ⟨d, ds, hn, hd⟩
  by_cases hneg : n < 0
  · refine ⟨45, natural n.natAbs, if_pos hneg, .inl rfl, ?_⟩
    rw [integer, if_pos hneg]
    rfl
  · obtain ⟨c, cs, hn, hc⟩ := hnat
    have hne : c ≠ 45 := by
      rintro rfl
      cases hc
    refine ⟨c, cs, by rw [integer, if_neg hneg, hn], .inr hc, ?_⟩
    simp [integer, hneg, hn, dropOne, hne]

theorem number_integer (n : Int) (rest : Text) :
    number (integer n ++ comma :: rest) = some (integer n, comma :: rest) := by
  obtain ⟨-, -, -, -, hdrop⟩ := integer_cases n (t := comma :: rest)
  have hnumber : afterNumber (integer n ++ comma :: rest) = some (comma :: rest) := by
    rw [afterNumber, hdrop, afterInteger_natural _ (by decide)]
    rfl
  rw [number, hnumber, Option.map_some, List.length_append, Nat.add_sub_cancel, List.take_left]

theorem value_integer (n : Int) (rest : Text) :
    value (fuel + 1) (integer n ++ comma :: rest) = some (.number (integer n), comma :: rest) := by
  have hnumber := number_integer n rest
  obtain ⟨c, cs, hn, hc, -⟩ := integer_cases n (t := comma :: rest)
  have hne : ∀ d : UInt16, d ≠ 45 → isDigit d = false → c ≠ d := by
    rintro d hminus hdigit rfl
    rcases hc with rfl | hc
    · exact hminus rfl
    · cases hdigit.symm.trans hc
  have hspace : isSpace c = false := by
    simp [isSpace, hne 32 (by decide) rfl, hne 9 (by decide) rfl, hne 10 (by decide) rfl,
      hne 13 (by decide) rfl]
  have hword : ∀ word : String, (∃ d ds, text word = d :: ds ∧ d ≠ 45 ∧ isDigit d = false) →
      ¬ (text word).isPrefixOf (integer n ++ comma :: rest) = true := by
    rintro word ⟨d, ds, hword, hminus, hdigit⟩
    simp [hword, hn, List.isPrefixOf, (hne d hminus hdigit).symm]
  have hskip : skip (integer n ++ comma :: rest) = c :: (cs ++ comma :: rest) := by
    simp [hn, skip, hspace]
  rw [value, hskip]
  simp only [if_neg (hne quote (by decide) rfl), if_neg (hne beginObject (by decide) rfl),
    if_neg (hne beginArray (by decide) rfl)]
  rw [← List.cons_append, ← hn, scalar, if_neg (hword "null" ⟨110, _, rfl, by decide, rfl⟩),
    if_neg (hword "true" ⟨116, _, rfl, by decide, rfl⟩),
    if_neg (hword "false" ⟨102, _, rfl, by decide, rfl⟩), hnumber]
  rfl

/-- An object of a number and a string, whose text is not escaped. -/
def rawAfter (first : Text) (n : Int) (key s : Text) : Text :=
  beginObject :: quote :: (first ++ quote :: colon :: (integer n ++ comma :: quote ::
    (key ++ quote :: colon :: quote :: (s ++ [quote, endObject]))))

/-- Escapes, white space and the rest of the object are read past. -/
example : member (text "a") (text "\x7b \"a\": [\"\\u0041\\n\"], \"b\": -1.5e3 \x7d") =
    some [65, 10] := by decide +kernel

theorem member_rawAfter {first : Text} (hfirst : Plain first) (n : Int) (hk : Plain key)
    (hs : Plain s) : member key (rawAfter first n key s) = some s := by
  apply member_last [(first, .number (integer n))]
  rw [parse_eq _ 3, rawAfter, value_object, members, name_of_plain hfirst]
  simp only [Option.bind_some, value_integer,
    next_self (show isSpace comma = false by decide), members_last hk hs]
  rfl

end Members

end NetworkLabs.Json
