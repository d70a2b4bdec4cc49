/-
Decoding of JSON texts (RFC 8259).

A text is a string of bytes; a string in it has to be UTF-8 and is decoded to its bytes.  The
members of an object are kept in their order, those with the same name included, and a number is
kept as its text.  Every function takes the bytes to read and returns what it read with what is
left; the ones that recur have a fuel, for which the length of the text is enough.

* `text_escaped` — a string whose quotes and backslashes are escaped is read back just if it is
  `Clean`; so are arrays of strings (`value_strings`);
* `text_unescaped_iff` — one that is written as it is, before a comma and another string, is read
  back just if it is `Literal`.
-/
import MetaNode.AddressHex
import MetaNode.WireTypes

namespace MetaNode

inductive Json where
  | null
  | bool (b : Bool)
  | number (text : Bytes)
  | string (s : Bytes)
  | array (elements : List Json)
  | object (members : List (Bytes × Json))

namespace Json

/-! ### Strings -/

def quote : UInt8 := 0x22

def backslash : UInt8 := 0x5c

def comma : UInt8 := 0x2c

/-- `k` hexadecimal digits, after those of `acc`. -/
def hexDigits : ℕ → ℕ → Bytes → Option (ℕ × Bytes)
  | 0, acc, b => some (acc, b)
  | _ + 1, _, [] => none
  | k + 1, acc, c :: b => (hexValue c).bind fun d => hexDigits k (16 * acc + d) b

def utf8 (n : ℕ) : Bytes := String.utf8EncodeChar (Char.ofNat n)

def lowSurrogate : Bytes → Option (ℕ × Bytes)
  | a :: b :: r =>
    if a = backslash ∧ b = 0x75 then
      (hexDigits 4 0 r).filter fun x => 0xdc00 ≤ x.1 && x.1 < 0xe000
    else none
  | _ => none

/-- The character of a code unit, or of the surrogate pair that it starts. -/
def unicode (x : ℕ × Bytes) : Option (Bytes × Bytes) :=
  if 0xd800 ≤ x.1 ∧ x.1 < 0xdc00 then
    (lowSurrogate x.2).map fun y =>
      (utf8 (0x10000 + (x.1 - 0xd800) * 0x400 + (y.1 - 0xdc00)), y.2)
  else if 0xdc00 ≤ x.1 ∧ x.1 < 0xe000 then none
  else some (utf8 x.1, x.2)

/-- What stands for itself after a backslash, or for a control character. -/
def simpleEscape (c : UInt8) : Option UInt8 :=
  [(quote, quote), (backslash, backslash), (0x2f, 0x2f), (0x62, 0x08), (0x66, 0x0c), (0x6e, 0x0a),
    (0x72, 0x0d), (0x74, 0x09)].lookup c

def escape : Bytes → Option (Bytes × Bytes)
  | [] => none
  | c :: r =>
    if c = 0x75 then (hexDigits 4 0 r).bind unicode else (simpleEscape c).map fun x => ([x], r)

def body : ℕ → Bytes → Option (Bytes × Bytes)
  | 0, _ => none
  | _ + 1, [] => none
  | n + 1, c :: r =>
    if c = quote then some ([], r)
    else if c = backslash then
      (escape r).bind fun e => (body n e.2).map fun x => (e.1 ++ x.1, x.2)
    else if c < 0x20 then none
    else (body n r).map fun x => (c :: x.1, x.2)

def text (b : Bytes) : Option (Bytes × Bytes) :=
  (body b.length b).filter fun x => Wire.validUtf8 x.1

/-! ### Values -/

def skipSpace (b : Bytes) : Bytes := b.dropWhile [0x20, 0x09, 0x0a, 0x0d].contains

def expect (c : UInt8) (b : Bytes) : Option Bytes :=
  match skipSpace b with
  | d :: r => if d = c then some r else none
  | [] => none

def isDigit (c : UInt8) : Bool := 0x30 ≤ c && c ≤ 0x39

def isExponent : Bytes → Bool
  | [] => true
  | c :: t =>
    let digits := if t.head? = some 0x2b ∨ t.head? = some 0x2d then t.tail else t
    (c == 0x65 || c == 0x45) && !digits.isEmpty && digits.all isDigit

def isFraction : Bytes → Bool
  | [] => true
  | c :: t =>
    if c = 0x2e then (t.head?.any isDigit) && isExponent (t.dropWhile isDigit)
    else isExponent (c :: t)

def isNumber (t : Bytes) : Bool :=
  let t := if t.head? = some 0x2d then t.tail else t
  if t.head? = some 0x30 then isFraction t.tail
  else (t.head?.any isDigit) && isFraction (t.dropWhile isDigit)

def scalar (b : Bytes) : Option (Json × Bytes) :=
  let word := b.takeWhile fun c => !(skipSpace [c]).isEmpty && !([comma, 0x5d, 0x7d].contains c)
  let r := b.drop word.length
  -- `null`, `true`, `false`
  if word = [0x6e, 0x75, 0x6c, 0x6c] then some (.null, r)
  else if word = [0x74, 0x72, 0x75, 0x65] then some (.bool true, r)
  else if word = [0x66, 0x61, 0x6c, 0x73, 0x65] then some (.bool false, r)
  else if isNumber word then some (.number word, r)
  else none

mutual

def value : ℕ → Bytes → Option (Json × Bytes)
  | 0, _ => none
  | n + 1, b =>
    match skipSpace b with
    | [] => none
    | c :: r =>
      if c = quote then (text r).map fun x => (.string x.1, x.2)
      else if c = 0x5b then
        match expect 0x5d r with
        | some r => some (.array [], r)
        | none => (elements n r).map fun x => (.array x.1, x.2)
      else if c = 0x7b then
        match expect 0x7d r with
        | some r => some (.object [], r)
        | none => (members n r).map fun x => (.object x.1, x.2)
      else scalar (c :: r)

def elements : ℕ → Bytes → Option (List Json × Bytes)
  | 0, _ => none
  | n + 1, b =>
    match value n b with
    | none => none
    | some (x, r) =>
      match expect comma r with
      | some r => (elements n r).map fun xs => (x :: xs.1, xs.2)
      | none => (expect 0x5d r).map fun r => ([x], r)

def members : ℕ → Bytes → Option (List (Bytes × Json) × Bytes)
  | 0, _ => none
  | n + 1, b =>
    match (expect quote b).bind text with
    | none => none
    | some (name, r) =>
      match (expect 0x3a r).bind (value n) with
      | none => none
      | some (x, r) =>
        match expect comma r with
        | some r => (members n r).map fun xs => ((name, x) :: xs.1, xs.2)
        | none => (expect 0x7d r).map fun r => ([(name, x)], r)

end

def decode (b : Bytes) : Option Json :=
  match value b.length b with
  | some (v, r) => if skipSpace r = [] then some v else none
  | none => none

/-! ### Strings -/

/-- A byte with a backslash before it if it needs one. -/
def escaped (c : UInt8) : Bytes := if c = quote ∨ c = backslash then [backslash, c] else [c]

instance decidableAbove (s : Bytes) : Decidable (∀ c ∈ s, 0x20 ≤ c) := List.decidableBAll _ s

/-- UTF-8 without control characters. -/
abbrev Clean (s : Bytes) : Prop := (∀ c ∈ s, 0x20 ≤ c) ∧ Wire.validUtf8 s

/-- What may stand between quotes as it is. -/
abbrev Literal (s : Bytes) : Prop := Clean s ∧ s.flatMap escaped = s

variable (n : ℕ)

theorem body_escaped (c : UInt8) (b : Bytes) :
    body (n + 1) (escaped c ++ b) =
      if 0x20 ≤ c then (body n b).map fun x => (c :: x.1, x.2) else none := by
  rw [escaped]
  split
  · next hspecial =>
    have hescape : escape (c :: b) = some ([c], b) := by
      rcases hspecial with rfl | rfl <;> rfl
    have hc : 0x20 ≤ c := by
      rcases hspecial with rfl | rfl <;> decide
    rw [if_pos hc, List.cons_append, body, if_neg (by decide), if_pos rfl, List.cons_append,
      List.nil_append, hescape]
    rfl
  · next hspecial =>
    rw [not_or] at hspecial
    rw [List.cons_append, body, if_neg hspecial.1, if_neg hspecial.2, List.nil_append]
    by_cases hc : 0x20 ≤ c
    · rw [if_neg (UInt8.not_lt.mpr hc), if_pos hc]
    · rw [if_pos (UInt8.not_le.mp hc), if_neg hc]

theorem length_escaped_pos (c : UInt8) : 0 < (escaped c).length := by
  rw [escaped]
  split <;> simp

variable {s : Bytes}

theorem body_flatMap_escaped {n : ℕ} (hn : (s.flatMap escaped).length < n) (r : Bytes) :
    body n (s.flatMap escaped ++ quote :: r) =
      if ∀ c ∈ s, 0x20 ≤ c then some (s, r) else none := by
  induction s generalizing n with
  | nil =>
    obtain ⟨n, rfl⟩ := Nat.exists_eq_add_one_of_ne_zero (Nat.ne_of_gt hn)
    rw [if_pos (List.forall_mem_nil _)]
    rfl
  | cons c s ih =>
    obtain ⟨n, rfl⟩ := Nat.exists_eq_add_one_of_ne_zero (Nat.ne_of_gt (Nat.zero_lt_of_lt hn))
    have hpos := length_escaped_pos c
    rw [List.flatMap_cons, List.length_append] at hn
    rw [List.flatMap_cons, List.append_assoc, body_escaped, ih (by omega)]
    simp only [List.forall_mem_cons]
    by_cases hc : 0x20 ≤ c
    · by_cases hs : ∀ c ∈ s, 0x20 ≤ c
      · rw [if_pos hc, if_pos hs, if_pos ⟨hc, hs⟩]
        rfl
      · rw [if_pos hc, if_neg hs, if_neg fun h => hs h.2]
        rfl
    · rw [if_neg hc, if_neg fun h => hc h.1]

theorem text_escaped (s r : Bytes) :
    text (s.flatMap escaped ++ quote :: r) = if Clean s then some (s, r) else none := by
  rw [text, body_flatMap_escaped (by simp)]
  by_cases hs : ∀ c ∈ s, 0x20 ≤ c
  · rw [if_pos hs, Option.filter_some]
    exact if_congr (and_iff_right hs).symm rfl rfl
  · rw [if_neg hs, if_neg fun h => hs h.1]
    rfl

theorem text_literal (hs : Literal s) (r : Bytes) : text (s ++ quote :: r) = some (s, r) := by
  have hescaped := text_escaped s r
  rwa [hs.2, if_pos hs.1] at hescaped

/-! ### Strings as they are -/

section Unescaped

variable {x tail r e : Bytes}

theorem hexDigits_quote {k acc m : ℕ} (h : hexDigits k acc (x ++ quote :: tail) = some (m, r)) :
    ∃ y z, x = y ++ z ∧ y.length = k ∧ r = z ++ quote :: tail := by
  induction k generalizing acc x with
  | zero =>
    cases h
    exact ⟨[], x, rfl, rfl, rfl⟩
  | succ k ih =>
    cases x with
    | nil => cases h
    | cons c =>
      obtain ⟨d, -, h⟩ := Option.bind_eq_some_iff.mp h
      obtain ⟨y, z, rfl, hlen, hr⟩ := ih h
      exact ⟨c :: y, z, rfl, congrArg (· + 1) hlen, hr⟩

theorem lowSurrogate_quote {m : ℕ} (h : lowSurrogate (x ++ quote :: tail) = some (m, r)) :
    ∃ y z, x = y ++ z ∧ r = z ++ quote :: tail := by
  match x with
  | [] =>
    cases tail with
    | nil => cases h
    | cons =>
      rw [List.nil_append, lowSurrogate, if_neg (by rintro ⟨hq, -⟩; cases hq)] at h
      cases h
  | [a] =>
    rw [List.singleton_append, lowSurrogate, if_neg (by rintro ⟨-, hq⟩; cases hq)] at h
    cases h
  | a :: b :: x =>
    rw [List.cons_append, List.cons_append, lowSurrogate] at h
    split at h
    · obtain ⟨y, z, rfl, -, hr⟩ := hexDigits_quote (Option.filter_eq_some_iff.mp h).1
      exact ⟨a :: b :: y, z, rfl, hr⟩
    · cases h

theorem length_utf8_le : (utf8 n).length ≤ 4 := by
  rw [utf8, String.length_utf8EncodeChar]
  exact Char.utf8Size_le_four _

/-- An escape is no longer than what it stands for, and ends before a quote that it is not the
escape of. -/
theorem escape_quote (h : escape (x ++ quote :: tail) = some (e, r)) :
    (x = [] ∧ e = [quote] ∧ r = tail) ∨
      ∃ y z, x = y ++ z ∧ e.length ≤ y.length ∧ r = z ++ quote :: tail := by
  cases x with
  | nil =>
    have hquote : escape ([] ++ quote :: tail) = some ([quote], tail) := rfl
    rw [hquote] at h
    cases h
    exact .inl ⟨rfl, rfl, rfl⟩
  | cons c x =>
    right
    rw [List.cons_append, escape] at h
    split at h
    · obtain ⟨⟨m, r'⟩, hdigits, hunicode⟩ := Option.bind_eq_some_iff.mp h
      obtain ⟨y, z, rfl, hlen, rfl⟩ := hexDigits_quote hdigits
      rw [unicode] at hunicode
      split at hunicode
      · obtain ⟨⟨m', r'⟩, hlow, heq⟩ := Option.map_eq_some_iff.mp hunicode
        obtain ⟨rfl, rfl⟩ := Prod.mk.inj heq
        obtain ⟨y', z, rfl, hr⟩ := lowSurrogate_quote hlow
        refine ⟨c :: (y ++ y'), z, by simp, (length_utf8_le _).trans ?_, hr⟩
        rw [List.length_cons, List.length_append]
        omega
      · split at hunicode
        · cases hunicode
        · cases hunicode
          exact ⟨c :: y, z, rfl, (length_utf8_le _).trans (by rw [List.length_cons]; omega), rfl⟩
    · obtain ⟨d, -, heq⟩ := Option.map_eq_some_iff.mp h
      cases heq
      exact ⟨[c], x, rfl, le_refl 1, rfl⟩

/-- The text ends at the quote behind `x`, or it is another one: where the reader is behind, it
stays behind, and a backslash at the end of `x` makes it read on up to the comma. -/
theorem body_unescaped {n : ℕ} {w rest : Bytes}
    (h : body n (x ++ quote :: comma :: quote :: rest) = some (w ++ x, r)) :
    w = [] ∧ (∀ c ∈ x, 0x20 ≤ c) ∧ x.flatMap escaped = x ∧ r = comma :: quote :: rest := by
  induction n generalizing x w with
  | zero => cases h
  | succ n ih =>
    cases x with
    | nil =>
      cases w with
      | nil =>
        cases h
        exact ⟨rfl, by simp, rfl, rfl⟩
      | cons => cases h
    | cons c x =>
      rw [List.cons_append, body] at h
      split at h
      · have hnil := congrArg Prod.fst (Option.some.inj h)
        simp at hnil
      split at h
      · next hback =>
        exfalso
        obtain ⟨⟨e, r'⟩, hescape, h⟩ := Option.bind_eq_some_iff.mp h
        obtain ⟨⟨z, r''⟩, hbody, heq⟩ := Option.map_eq_some_iff.mp h
        obtain ⟨hout, rfl⟩ := Prod.mk.inj heq
        dsimp only at hbody hout
        obtain ⟨rfl, rfl, rfl⟩ | ⟨y, x', rfl, hlen, rfl⟩ := escape_quote hescape
        · -- the text goes on with the comma, and ends at the next quote
          have hz : z = [comma] := by
            match n with
            | 0 => cases hbody
            | 1 => cases hbody
            | n + 2 =>
              cases hbody
              rfl
          have hlast := congrArg List.getLast? hout
          rw [hz, hback, List.getLast?_append, List.getLast?_append] at hlast
          cases hlast
        · rw [← List.cons_append, ← List.append_assoc] at hout
          have hlt : e.length < (w ++ c :: y).length := by
            rw [List.length_append, List.length_cons]
            omega
          have hz : z = (w ++ c :: y).drop e.length ++ x' := by
            have hdrop := congrArg (List.drop e.length) hout
            rwa [List.drop_left, List.drop_append_of_le_length hlt.le] at hdrop
          rw [hz] at hbody
          exact absurd (List.drop_eq_nil_iff.mp (ih hbody).1) (Nat.not_le.mpr hlt)
      split at h
      · cases h
      · next hquote hback hlow =>
        obtain ⟨⟨z, r'⟩, hbody, heq⟩ := Option.map_eq_some_iff.mp h
        obtain ⟨hout, rfl⟩ := Prod.mk.inj heq
        dsimp only at hout
        cases w with
        | nil =>
          obtain rfl := (List.cons.inj hout).2
          obtain ⟨-, hclean, hescaped, hr⟩ := ih (w := []) hbody
          refine ⟨rfl, ?_, ?_, hr⟩
          · exact List.forall_mem_cons.mpr ⟨UInt8.not_lt.mp hlow, hclean⟩
          · rw [List.flatMap_cons, hescaped, escaped, if_neg (not_or.mpr ⟨hquote, hback⟩)]
            rfl
        | cons d w =>
          have hz : z = (w ++ [c]) ++ x := by simpa using (List.cons.inj hout).2
          rw [hz] at hbody
          simpa using (ih hbody).1

theorem text_unescaped_iff {rest : Bytes} :
    text (x ++ quote :: comma :: quote :: rest) = some (x, r) ↔
      Literal x ∧ r = comma :: quote :: rest := by
  constructor
  · intro h
    obtain ⟨hbody, hvalid⟩ := Option.filter_eq_some_iff.mp h
    obtain ⟨-, hclean, hescaped, hr⟩ := body_unescaped (w := []) hbody
    exact ⟨⟨⟨hclean, hvalid⟩, hescaped⟩, hr⟩
  · rintro ⟨hliteral, rfl⟩
    exact text_literal hliteral _

end Unescaped

/-! ### Objects and arrays of strings -/

theorem value_quote (b : Bytes) :
    value (n + 1) (quote :: b) = (text b).map fun x => (.string x.1, x.2) := by
  rw [value]
  rfl

theorem value_object (b : Bytes) :
    value (n + 1) (0x7b :: quote :: b) =
      (members n (quote :: b)).map fun x => (.object x.1, x.2) := by
  rw [value]
  rfl

def stringElements : List Bytes → Bytes
  | [] => []
  | [s] => quote :: (s.flatMap escaped ++ [quote])
  | s :: rest => quote :: (s.flatMap escaped ++ quote :: comma :: stringElements rest)

theorem length_le_stringElements (ss : List Bytes) : ss.length ≤ (stringElements ss).length := by
  fun_induction stringElements with
  | case1 => exact le_refl 0
  | case2 s => exact Nat.succ_le_succ (Nat.zero_le _)
  | case3 s rest hrest ih =>
    simp only [List.length_cons, List.length_append]
    omega

theorem elements_stringElements {ss : List Bytes} (h : ss ≠ []) (r : Bytes) :
    elements (n + ss.length + 1) (stringElements ss ++ 0x5d :: r) =
      if ∀ s ∈ ss, Clean s then some (ss.map .string, r) else none := by
  fun_induction stringElements with
  | case1 => exact absurd rfl h
  | case2 s =>
    rw [elements, List.cons_append, List.append_assoc, List.singleton_append, List.length_singleton,
      value_quote, text_escaped]
    simp only [List.forall_mem_singleton]
    by_cases hs : Clean s
    · rw [if_pos hs, if_pos hs]
      rfl
    · rw [if_neg hs, if_neg hs]
      rfl
  | case3 s rest hrest ih =>
    rw [elements, List.cons_append, List.append_assoc, List.cons_append, List.cons_append,
      List.length_cons, ← Nat.add_assoc, value_quote, text_escaped]
    simp only [List.forall_mem_cons]
    by_cases hs : Clean s
    · rw [if_pos hs]
      show (elements (n + rest.length + 1) (stringElements rest ++ 0x5d :: r)).map _ = _
      rw [ih hrest]
      simp only [and_iff_right hs]
      split
      · rfl
      · rfl
    · rw [if_neg hs, if_neg fun hss => hs hss.1]
      rfl

theorem value_strings (ss : List Bytes) (r : Bytes) :
    value (n + ss.length + 2) (0x5b :: (stringElements ss ++ 0x5d :: r)) =
      if ∀ s ∈ ss, Clean s then some (.array (ss.map .string), r) else none := by
  rw [value]
  by_cases h : ss = []
  · rw [h]
    rfl
  · obtain ⟨b, hb⟩ : ∃ b, stringElements ss ++ 0x5d :: r = quote :: b := by
      obtain _ | ⟨s, _ | ⟨t, ss⟩⟩ := ss
      · exact absurd rfl h
      · exact ⟨_, rfl⟩
      · exact ⟨_, rfl⟩
    have helements := elements_stringElements n h r
    rw [hb] at helements ⊢
    show (elements (n + ss.length + 1) (quote :: b)).map _ = _
    rw [helements]
    split
    · rfl
    · rfl

theorem members_named {name : Bytes} (hname : Literal name) (n : ℕ) (b : Bytes) :
    members (n + 1) (quote :: (name ++ quote :: 0x3a :: b)) =
      match value n b with
      | none => none
      | some (v, r) =>
        match expect comma r with
        | some r => (members n r).map fun xs => ((name, v) :: xs.1, xs.2)
        | none => (expect 0x7d r).map fun r => ([(name, v)], r) := by
  have hread : (expect quote (quote :: (name ++ quote :: 0x3a :: b))).bind text =
      some (name, 0x3a :: b) := text_literal hname _
  rw [members, hread]
  rfl

end Json

end MetaNode
