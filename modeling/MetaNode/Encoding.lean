/-
Key encodings of the trie (`pkg/trie/node/encoding.go`).

Inside the trie a key is a string of nibbles that ends in the terminator 16
(`keybytesToHex`); a node is stored with its run in compact form
(`hexToCompact`): one flag byte for terminator and parity, then two nibbles a
byte.  A hex key is typed as a list over `Fin 17` here, so every element is an
index into the children of a full node.  Written over the key itself
the compact form is the same (`hexToCompactInPlace_eq`).
-/
import Mathlib.Algebra.GroupWithZero.Nat
import MetaNode.Bytes
import MetaNode.Patricia

namespace MetaNode

open Patricia

abbrev Nibble := Fin 17

/-- What makes a numeral a nibble. -/
instance neZeroNibbles : NeZero 17 := ⟨by decide⟩

/-- A hex key, or the path of a node: a string of nibbles. -/
abbrev Path := List Nibble

/-- The bytes of a path, as the source keeps them. -/
def Path.bytes (p : Path) : Bytes := p.map fun n => UInt8.ofNat n.val

theorem Path.bytes_injective : Function.Injective Path.bytes := by
  refine List.map_injective_iff.mpr fun a b h => Fin.ext ?_
  have h' := congrArg UInt8.toNat h
  simp only [UInt8.toNat_ofNat'] at h'
  omega

def hiNibble (b : UInt8) : Nibble := ⟨b.toNat / 16, by have := b.toNat_lt; omega⟩

def loNibble (b : UInt8) : Nibble := ⟨b.toNat % 16, by omega⟩

def nibbles : Bytes → Path
  | [] => []
  | b :: bs => hiNibble b :: loNibble b :: nibbles bs

def keybytesToHex (str : Bytes) : Path := nibbles str ++ [16]

/-- `nibbles[ni]<<4 | nibbles[ni+1]` -/
def packNibbles (a b : Nibble) : UInt8 := UInt8.ofNat a.val <<< 4 ||| UInt8.ofNat b.val

def decodeNibbles : Path → Bytes
  | a :: b :: r => packNibbles a b :: decodeNibbles r
  | _ => []

def hasTerm (s : Path) : Bool := s.getLast? == some 16

/-- The flag byte of a key of even length: `terminator << 5`. -/
def evenFlag (terminator : Bool) : UInt8 := (if terminator then (1 : UInt8) else 0) <<< 5

/-- The flag byte of a key of odd length, which also holds the first nibble. -/
def oddFlag (terminator : Bool) (n : Nibble) : UInt8 :=
  evenFlag terminator ||| (1 : UInt8) <<< 4 ||| UInt8.ofNat n.val

/-- The compact form of the nibbles before the terminator. -/
def compactNibbles (terminator : Bool) (hex : Path) : Bytes :=
  if hex.length % 2 = 1 then
    match hex with
    | n :: hex => oddFlag terminator n :: decodeNibbles hex
    | [] => [evenFlag terminator]
  else evenFlag terminator :: decodeNibbles hex

def hexToCompact (hex : Path) : Bytes :=
  compactNibbles (hasTerm hex) (if hasTerm hex then hex.dropLast else hex)

def compactToHex (compact : Bytes) : Path :=
  match compact with
  | [] => []
  | b :: bs =>
    let base := keybytesToHex (b :: bs)
    -- delete terminator flag
    let base := if hiNibble b < 2 then base.dropLast else base
    -- apply odd flag
    base.drop (2 - (hiNibble b).val % 2)

/-- The length of the common prefix of `a` and `b`. -/
def prefixLen : Path → Path → ℕ
  | x :: a, y :: b => if x = y then prefixLen a b + 1 else 0
  | _, _ => 0

/-! ### Keys -/

theorem prefixLen_eq (a b : Path) : prefixLen a b = (commonPrefix a b).length := by
  induction a generalizing b with
  | nil => rfl
  | cons x a ih =>
    cases b with
    | nil => rfl
    | cons =>
      rw [prefixLen, commonPrefix]
      split
      · rw [ih, List.length_cons]
      · rfl

@[simp] theorem length_nibbles (b : Bytes) : (nibbles b).length = 2 * b.length := by
  induction b with
  | nil => rfl
  | cons x b ih => simp only [nibbles, List.length_cons, ih]; omega

theorem nibbles_injective : Function.Injective nibbles := by
  intro a
  induction a with
  | nil =>
    intro b h
    cases b with
    | nil => rfl
    | cons => simp [nibbles] at h
  | cons x a ih =>
    intro b h
    cases b with
    | nil => simp [nibbles] at h
    | cons y b =>
      simp only [nibbles, hiNibble, loNibble, List.cons.injEq, Fin.mk.injEq] at h
      have hxy : x = y := UInt8.toNat_inj.mp (by omega)
      rw [hxy, ih h.2.2]

theorem not_mem_nibbles (b : Bytes) : (16 : Nibble) ∉ nibbles b := by
  induction b with
  | nil => simp [nibbles]
  | cons x b ih =>
    have hx := x.toNat_lt
    simp only [nibbles, List.mem_cons, not_or, hiNibble, loNibble]
    refine ⟨fun h => ?_, fun h => ?_, ih⟩
    · have := congrArg Fin.val h
      simp at this
      omega
    · have := congrArg Fin.val h
      simp at this
      omega

theorem terminated_keybytesToHex (str : Bytes) : Terminated 16 (keybytesToHex str) :=
  ⟨nibbles str, not_mem_nibbles str, rfl⟩

theorem keybytesToHex_injective : Function.Injective keybytesToHex :=
  fun _ _ h => nibbles_injective (List.append_cancel_right h)

@[simp] theorem length_keybytesToHex (str : Bytes) :
    (keybytesToHex str).length = 2 * str.length + 1 := by
  simp [keybytesToHex]

/-! ### The compact form -/

theorem nibbles_packNibbles : ∀ a b : Nibble, a ≠ 16 → b ≠ 16 →
    hiNibble (packNibbles a b) = a ∧ loNibble (packNibbles a b) = b := by
  decide

theorem nibbles_decodeNibbles : ∀ {w : Path}, 16 ∉ w → w.length % 2 = 0 →
    nibbles (decodeNibbles w) = w
  | [], _, _ => rfl
  | [a], _, h => by simp at h
  | a :: b :: w, hw, h => by
    simp only [List.mem_cons, not_or] at hw
    have hab := nibbles_packNibbles a b (Ne.symm hw.1) (Ne.symm hw.2.1)
    rw [decodeNibbles, nibbles, hab.1, hab.2,
      nibbles_decodeNibbles hw.2.2 (by simp only [List.length_cons] at h; omega)]

theorem nibbles_oddFlag : ∀ (t : Bool) (n : Nibble), n ≠ 16 →
    hiNibble (oddFlag t n) = (if t then 3 else 1) ∧ loNibble (oddFlag t n) = n := by
  decide

theorem hiNibble_evenFlag (t : Bool) : hiNibble (evenFlag t) = if t then 2 else 0 := by
  cases t <;> rfl

variable {w : Path}

theorem hasTerm_eq_false (hw : 16 ∉ w) : hasTerm w = false := by
  rw [hasTerm, beq_eq_false_iff_ne]
  exact fun h => hw (List.mem_of_getLast? h)

theorem hexToCompact_eq (hw : 16 ∉ w) (t : Bool) :
    hexToCompact (w ++ if t then [16] else []) = compactNibbles t w := by
  cases t with
  | true => simp [hexToCompact, hasTerm]
  | false =>
    simp [hexToCompact, hasTerm_eq_false hw]

/-- **The compact form loses nothing** on a word with or without terminator. -/
theorem compactToHex_hexToCompact (hw : 16 ∉ w) (t : Bool) :
    compactToHex (hexToCompact (w ++ if t then [16] else []))
      = w ++ if t then [16] else [] := by
  rw [hexToCompact_eq hw, compactNibbles.eq_def]
  by_cases hodd : w.length % 2 = 1
  · rw [if_pos hodd]
    cases w with
    | nil => simp at hodd
    | cons n w =>
      simp only [List.mem_cons, not_or] at hw
      have hflag := nibbles_oddFlag t n (Ne.symm hw.1)
      have hrest := nibbles_decodeNibbles hw.2 (by simp only [List.length_cons] at hodd; omega)
      rw [compactToHex, keybytesToHex, nibbles, hflag.1, hflag.2, hrest]
      cases t with
      | true => rfl
      | false =>
        show List.drop 1 ((1 :: n :: w) ++ [16]).dropLast = n :: w ++ []
        rw [List.dropLast_concat, List.append_nil, List.drop_one, List.tail_cons]
  · rw [if_neg hodd]
    have hrest := nibbles_decodeNibbles hw (by omega)
    rw [compactToHex, keybytesToHex, nibbles, hrest, hiNibble_evenFlag]
    cases t with
    | true => rfl
    | false =>
      show List.drop 2 ((0 :: loNibble (evenFlag false) :: w) ++ [16]).dropLast = w ++ []
      rw [List.dropLast_concat, List.append_nil, List.drop_succ_cons, List.drop_one, List.tail_cons]

/-! ### Valid keys -/

/-- A valid hex key: nibbles below 16, with or without the terminator. -/
def ValidKey (k : Path) : Prop :=
  ∃ (w : Path) (terminated : Bool), 16 ∉ w ∧ k = w ++ if terminated then [16] else []

/-- **The compact form of valid keys loses nothing.**  A key comes back from its compact form, a
compact form from its key, and different keys have different compact forms. -/
theorem compact_roundTrip :
    (∀ k, ValidKey k → compactToHex (hexToCompact k) = k) ∧
      (∀ c, (∃ k, ValidKey k ∧ hexToCompact k = c) → hexToCompact (compactToHex c) = c) ∧
      ∀ k k', ValidKey k → ValidKey k' → hexToCompact k = hexToCompact k' → k = k' := by
  have hback : ∀ k, ValidKey k → compactToHex (hexToCompact k) = k := by
    rintro k ⟨w, t, hw, rfl⟩
    exact compactToHex_hexToCompact hw t
  refine ⟨hback, ?_, ?_⟩
  · rintro c ⟨k, hk, rfl⟩
    rw [hback k hk]
  · intro k k' hk hk' heq
    rw [← hback k hk, heq, hback k' hk']

/-! ### In place -/

/-- `b[i] = x` -/
def putByte (b : Bytes) (i : ℕ) (x : UInt8) : Option Bytes :=
  if i < b.length then some (b.set i x) else none

/-- The loop of `hexToCompactInPlace`, with the number of times that it has to run. -/
def packInPlace : ℕ → ℕ → ℕ → Bytes → Option Bytes
  | 0, _, _, hex => some hex
  | n + 1, bi, ni, hex => do
    let hex ← putByte hex bi ((← hex[ni]?) <<< 4 ||| (← hex[ni + 1]?))
    packInPlace n (bi + 1) (ni + 2) hex

/-- The flag byte, for which the first nibble is read at an odd length. -/
def firstByte (terminated : Bool) (hexLen : ℕ) (hex : Bytes) : Option UInt8 :=
  if hexLen % 2 = 1 then (hex[0]?).map (evenFlag terminated ||| (1 : UInt8) <<< 4 ||| ·)
  else some (evenFlag terminated)

/-- `hexToCompactInPlace`: its argument afterwards, and the length of the slice of it that is
returned.  An index out of range is `none`. -/
def hexToCompactInPlace (hex : Bytes) : Option (Bytes × ℕ) := do
  let terminated := hex.getLast? == some 16
  let hexLen := if terminated then hex.length - 1 else hex.length
  let first ← firstByte terminated hexLen hex
  let ni := hexLen % 2
  let hex ← packInPlace ((hexLen - ni + 1) / 2) 1 ni hex
  return (← putByte hex 0 first, hexLen / 2 + 1)

theorem putByte_append (done rest : Bytes) (y x : UInt8) :
    putByte (done ++ y :: rest) done.length x = some (done ++ x :: rest) := by
  rw [putByte, if_pos (by simp), List.set_append_right _ _ (Nat.le_refl _), Nat.sub_self,
    List.set_cons_zero]

/-- The loop, once it does not write before what it reads: `done` is written, `gap` is read and
not overwritten yet. -/
theorem packInPlace_append (n : ℕ) (done gap after : Bytes) (unread : Path)
    (h : unread.length = 2 * n) :
    ∃ rest : Bytes, packInPlace n done.length (done.length + gap.length)
        (done ++ (gap ++ (unread.bytes ++ after))) = some (done ++ (decodeNibbles unread ++ rest)) ∧
      rest.length + n = gap.length + unread.length + after.length := by
  induction n generalizing done gap unread with
  | zero =>
    rw [List.length_eq_zero_iff] at h
    exact ⟨gap ++ after, by simp [packInPlace, h, decodeNibbles, Path.bytes], by simp [h]⟩
  | succ n ih =>
    obtain ⟨a, unread, rfl⟩ := List.exists_cons_of_length_pos (l := unread) (by omega)
    obtain ⟨b, unread, rfl⟩ := List.exists_cons_of_length_pos (l := unread)
      (by rw [List.length_cons] at h; omega)
    simp only [List.length_cons] at h
    have hbytes : Path.bytes (a :: b :: unread) =
        UInt8.ofNat a.val :: UInt8.ofNat b.val :: Path.bytes unread := rfl
    rw [hbytes]
    have hread : ∀ (i : ℕ) (c : UInt8) (s : Bytes), s[i]? = some c →
        (done ++ (gap ++ (s ++ after)))[done.length + gap.length + i]? = some c := by
      intro i c s hs
      obtain ⟨hi, -⟩ := List.getElem?_eq_some_iff.mp hs
      rw [← List.append_assoc, ← List.length_append, List.getElem?_append_right (by omega),
        Nat.add_sub_cancel_left, List.getElem?_append_left hi, hs]
    -- the byte that is written next was read: it is in the gap, or the first of the two
    obtain ⟨y, gap', hgap⟩ :=
      List.exists_cons_of_ne_nil (l := gap ++ [UInt8.ofNat a.val, UInt8.ofNat b.val]) (by simp)
    have hlength := congrArg List.length hgap
    simp only [List.length_append, List.length_cons, List.length_nil] at hlength
    have hbuffer : gap ++ (UInt8.ofNat a.val :: UInt8.ofNat b.val :: Path.bytes unread ++ after) =
        y :: (gap' ++ (Path.bytes unread ++ after)) := by
      rw [← List.cons_append, ← hgap, List.append_assoc]
      rfl
    obtain ⟨rest, hrest, hcount⟩ := ih (done ++ [packNibbles a b]) gap' unread (by omega)
    refine ⟨rest, ?_, by simp only [List.length_cons]; omega⟩
    rw [packInPlace, ← Nat.add_zero (done.length + gap.length), hread 0 _ _ rfl, Nat.add_zero,
      hread 1 _ _ rfl]
    simp only [Option.bind_eq_bind, Option.bind_some]
    rw [hbuffer, putByte_append, Option.bind_some, decodeNibbles]
    simp only [List.length_append, List.length_cons, List.length_nil, List.append_assoc,
      List.cons_append, List.nil_append] at hrest ⊢
    rw [show done.length + gap.length + 2 = done.length + (0 + 1) + gap'.length by omega]
    exact hrest

/-- The loop on the bytes of a key: what it leaves after the first byte, whose value is not said. -/
theorem packInPlace_key {after tail : Bytes} {x : UInt8} (h : w.bytes ++ after = x :: tail) :
    ∃ rest, packInPlace (w.length / 2) 1 (w.length % 2) (w.bytes ++ after) =
        some (x :: (decodeNibbles (w.drop (w.length % 2)) ++ rest)) ∧
      rest.length + w.length / 2 = tail.length := by
  have htotal := congrArg List.length h
  rw [List.length_append, Path.bytes, List.length_map, List.length_cons] at htotal
  by_cases hodd : w.length % 2 = 1
  · -- the first nibble goes to the flag byte, the others are read from where they are written
    obtain ⟨a, u, rfl⟩ := List.exists_cons_of_length_pos (l := w) (by omega)
    obtain ⟨rfl, -⟩ := List.cons.inj h
    rw [List.length_cons] at hodd htotal
    obtain ⟨rest, hrest, hcount⟩ :=
      packInPlace_append (u.length / 2) [UInt8.ofNat a.val] [] after u (by omega)
    refine ⟨rest, ?_, ?_⟩
    · rw [List.length_cons, hodd, show (u.length + 1) / 2 = u.length / 2 by omega]
      exact hrest
    · rw [List.length_cons]
      rw [List.length_nil] at hcount
      omega
  · rw [show w.length % 2 = 0 by omega, List.drop_zero]
    by_cases hempty : w = []
    · subst hempty
      exact ⟨tail, congrArg some h, Nat.add_zero _⟩
    · -- the first step writes after what it reads
      obtain ⟨a, u, rfl⟩ := List.exists_cons_of_ne_nil hempty
      obtain ⟨b, u, rfl⟩ := List.exists_cons_of_length_pos (l := u)
        (by rw [List.length_cons] at hodd; omega)
      obtain ⟨rfl, -⟩ := List.cons.inj h
      simp only [List.length_cons] at hodd htotal
      obtain ⟨rest, hrest, hcount⟩ :=
        packInPlace_append (u.length / 2) [UInt8.ofNat a.val, packNibbles a b] [] after u (by omega)
      refine ⟨rest, ?_, ?_⟩
      · rw [List.length_cons, List.length_cons,
          show (u.length + 1 + 1) / 2 = u.length / 2 + 1 by omega]
        exact hrest
      · simp only [List.length_cons]
        rw [List.length_nil] at hcount
        omega

theorem getLast?_bytes (k : Path) : (k.bytes.getLast? == some 16) = hasTerm k := by
  have hbyte : ∀ n : Nibble, (some (UInt8.ofNat n.val) == some 16) = (some n == some 16) := by
    decide
  rw [hasTerm, Path.bytes, List.getLast?_map]
  cases k.getLast? with
  | none => rfl
  | some n => exact hbyte n

theorem length_decodeNibbles (w : Path) : (decodeNibbles w).length = w.length / 2 := by
  fun_induction decodeNibbles with
  | case1 a b rest ih =>
    simp only [List.length_cons, ih]
    omega
  | case2 w hw =>
    obtain _ | ⟨a, _ | ⟨b, rest⟩⟩ := w
    · rfl
    · simp
    · exact absurd rfl (hw a b rest)

/-- **In place the compact form is the same.**  What a step of the loop overwrites has been read,
so all it reads is from the key as it was. -/
theorem hexToCompactInPlace_eq (k : Path) (hk : k ≠ []) :
    ∃ buf, hexToCompactInPlace k.bytes = some (buf, (hexToCompact k).length) ∧
      buf.take (hexToCompact k).length = hexToCompact k ∧ buf.length = k.length := by
  have hbytes : k.bytes.length = k.length := List.length_map _
  obtain ⟨x, tail, hcons⟩ := List.exists_cons_of_length_pos (l := k.bytes)
    (by rw [hbytes]; exact List.length_pos_iff.mpr hk)
  obtain ⟨w, after, hcompact, hlen, hsplit⟩ : ∃ (w : Path) (after : Bytes),
      hexToCompact k = compactNibbles (hasTerm k) w ∧
      (if hasTerm k then k.bytes.length - 1 else k.bytes.length) = w.length ∧
      k.bytes = w.bytes ++ after := by
    rw [hexToCompact, hbytes]
    split
    · refine ⟨k.dropLast, k.bytes.drop (k.length - 1), rfl, List.length_dropLast.symm, ?_⟩
      rw [Path.bytes, Path.bytes, List.dropLast_eq_take, List.map_take, List.take_append_drop]
    · exact ⟨k, [], rfl, rfl, (List.append_nil _).symm⟩
  obtain ⟨rest, hloop, hcount⟩ := packInPlace_key (hsplit.symm.trans hcons)
  rw [← hsplit] at hloop
  obtain ⟨first, hfirst, hform⟩ : ∃ first,
      firstByte (hasTerm k) w.length k.bytes = some first ∧
      compactNibbles (hasTerm k) w = first :: decodeNibbles (w.drop (w.length % 2)) := by
    rw [firstByte, compactNibbles.eq_def]
    by_cases hodd : w.length % 2 = 1
    · obtain ⟨a, u, rfl⟩ := List.exists_cons_of_length_pos (l := w) (by omega)
      rw [if_pos hodd, if_pos hodd, hodd, hsplit]
      exact ⟨_, rfl, rfl⟩
    · rw [if_neg hodd, if_neg hodd, show w.length % 2 = 0 by omega]
      exact ⟨_, rfl, rfl⟩
  have hdecode := length_decodeNibbles (w.drop (w.length % 2))
  rw [List.length_drop] at hdecode
  have htail := congrArg List.length hcons
  rw [hbytes, List.length_cons] at htail
  rw [hcompact, hform]
  refine ⟨first :: (decodeNibbles (w.drop (w.length % 2)) ++ rest), ?_, ?_, ?_⟩
  · have hput := putByte_append [] (decodeNibbles (w.drop (w.length % 2)) ++ rest) x first
    simp only [List.nil_append, List.length_nil] at hput
    simp only [hexToCompactInPlace, getLast?_bytes, hlen, hfirst, Option.bind_eq_bind,
      Option.bind_some]
    rw [show (w.length - w.length % 2 + 1) / 2 = w.length / 2 by omega, hloop, Option.bind_some,
      hput, List.length_cons, hdecode,
      show (w.length - w.length % 2) / 2 = w.length / 2 by omega]
    rfl
  · rw [List.length_cons, List.take_succ_cons, List.take_left]
  · rw [List.length_cons, List.length_append]
    omega

/-- A key of three nibbles with its terminator. -/
theorem hexToCompactInPlace_eq_three :
    ∃ buf, hexToCompactInPlace (Path.bytes [1, 2, 3, 16]) =
        some (buf, (hexToCompact [1, 2, 3, 16]).length) ∧
      buf.take (hexToCompact [1, 2, 3, 16]).length = hexToCompact [1, 2, 3, 16] ∧
      buf.length = 4 :=
  hexToCompactInPlace_eq [1, 2, 3, 16] (by decide)

end MetaNode
