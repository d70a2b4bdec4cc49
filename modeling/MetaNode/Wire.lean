/-
The Protocol Buffers wire format.

A message travels as a list of numbered records.  `Format` is what callers may
rely on: records that were written are read back.  Which records a message
type has is a matter of its schema and stays with the caller; the readers
`getBytes`, `getVarint` and `getRepeated` follow the rules for a known field
(the last record of a scalar field wins, those of a repeated field add up,
records of another wire type are skipped).  In a message whose fields have
different numbers each of them finds its own field (`getBytes_fieldsOf`).
Messages that are written one after the other can be told apart if each of them
starts with a field that occurs nowhere else in it (`eq_of_flatten_eq`).

`leb` is the format itself: little-endian base-128 integers, a tag
`8 * number + wire type` before every record.
-/
import Mathlib.Algebra.Group.Nat.Defs
import MetaNode.Bytes

namespace Wire

open MetaNode (Bytes)

inductive Value where
  | varint (n : ℕ)
  | fixed64 (b : Bytes)
  | bytes (b : Bytes)
  | fixed32 (b : Bytes)
  deriving DecidableEq

structure Field where
  num : ℕ
  val : Value
  deriving DecidableEq

def Value.Valid : Value → Prop
  | .varint n => n < 2 ^ 64
  | .fixed64 b => b.length = 8
  | .bytes _ => True
  | .fixed32 b => b.length = 4

def Field.Valid (f : Field) : Prop := 0 < f.num ∧ f.num < 2 ^ 29 ∧ f.val.Valid

structure Format where
  encode : List Field → Bytes
  decode : Bytes → Option (List Field)
  encode_nil : encode [] = []
  decode_encode : ∀ fs, (∀ f ∈ fs, f.Valid) → decode (encode fs) = some fs

variable {fs : List Field}

theorem Format.encode_ne_nil (F : Format) (hvalid : ∀ f ∈ fs, f.Valid) (hne : fs ≠ []) :
    F.encode fs ≠ [] := by
  intro hnil
  have hd := F.decode_encode fs hvalid
  have hd' := F.decode_encode [] (by simp)
  rw [F.encode_nil] at hd'
  rw [hnil, hd', Option.some.injEq] at hd
  exact hne hd.symm

/-! ### Fields of a message -/

variable (num : ℕ)

/-- A singular bytes field: the empty string is not sent. -/
def bytesField (b : Bytes) : List Field := if b = [] then [] else [⟨num, .bytes b⟩]

def varintField (num n : ℕ) : List Field := if n = 0 then [] else [⟨num, .varint n⟩]

def repeatedField (bs : List Bytes) : List Field := bs.map fun b => ⟨num, .bytes b⟩

def selectBytes : Field → Option Bytes
  | ⟨n, .bytes b⟩ => if n = num then some b else none
  | _ => none

def selectVarint : Field → Option ℕ
  | ⟨n, .varint k⟩ => if n = num then some k else none
  | _ => none

def getRepeated (fs : List Field) : List Bytes := fs.filterMap (selectBytes num)

def getVarints (fs : List Field) : List ℕ := fs.filterMap (selectVarint num)

def getBytes (fs : List Field) : Bytes := (getRepeated num fs).getLast?.getD []

def getVarint (fs : List Field) : ℕ := (getVarints num fs).getLast?.getD 0

section Readers

variable {m : ℕ} {num}

@[simp] theorem getRepeated_append (fs gs : List Field) :
    getRepeated num (fs ++ gs) = getRepeated num fs ++ getRepeated num gs :=
  List.filterMap_append

@[simp] theorem getVarints_append (fs gs : List Field) :
    getVarints num (fs ++ gs) = getVarints num fs ++ getVarints num gs :=
  List.filterMap_append

variable (b : Bytes)

theorem getRepeated_bytesField :
    getRepeated num (bytesField m b) = if m = num then (if b = [] then [] else [b]) else [] := by
  by_cases hb : b = [] <;> by_cases hm : m = num <;>
    simp [getRepeated, bytesField, selectBytes, hb, hm]

variable (n : ℕ)

@[simp] theorem getRepeated_varintField : getRepeated num (varintField m n) = [] := by
  by_cases hn : n = 0 <;> simp [getRepeated, varintField, selectBytes, hn]

theorem getRepeated_repeatedField (bs : List Bytes) :
    getRepeated num (repeatedField m bs) = if m = num then bs else [] := by
  induction bs with
  | nil => simp [getRepeated, repeatedField]
  | cons b bs ih =>
    have hcons : getRepeated num (repeatedField m (b :: bs))
        = (if m = num then [b] else []) ++ getRepeated num (repeatedField m bs) := by
      by_cases hm : m = num <;> simp [getRepeated, repeatedField, selectBytes, hm]
    rw [hcons, ih]
    split <;> simp

@[simp] theorem getVarints_bytesField : getVarints num (bytesField m b) = [] := by
  by_cases hb : b = [] <;> simp [getVarints, bytesField, selectVarint, hb]

theorem getVarints_varintField :
    getVarints num (varintField m n) = if m = num then (if n = 0 then [] else [n]) else [] := by
  by_cases hn : n = 0 <;> by_cases hm : m = num <;>
    simp [getVarints, varintField, selectVarint, hn, hm]

@[simp] theorem getVarints_repeatedField (bs : List Bytes) :
    getVarints num (repeatedField m bs) = [] := by
  induction bs with
  | nil => rfl
  | cons b bs ih => simp_all [getVarints, repeatedField, selectVarint]

@[simp] theorem getLast_bytes :
    (if b = [] then ([] : List Bytes) else [b]).getLast?.getD [] = b := by
  split
  · simp [*]
  · rfl

@[simp] theorem getLast_varint : (if n = 0 then ([] : List ℕ) else [n]).getLast?.getD 0 = n := by
  split
  · simp [*]
  · rfl

end Readers

theorem valid_bytesField (num : ℕ) (h : 0 < num ∧ num < 2 ^ 29) (b : Bytes) :
    ∀ f ∈ bytesField num b, f.Valid := by
  intro f hf
  unfold bytesField at hf
  split at hf
  · simp at hf
  · rw [List.mem_singleton] at hf
    subst hf
    exact ⟨h.1, h.2, trivial⟩

theorem valid_varintField (num : ℕ) {n : ℕ} (h : 0 < num ∧ num < 2 ^ 29) (hn : n < 2 ^ 64) :
    ∀ f ∈ varintField num n, f.Valid := by
  intro f hf
  unfold varintField at hf
  split at hf
  · simp at hf
  · rw [List.mem_singleton] at hf
    subst hf
    exact ⟨h.1, h.2, hn⟩

theorem valid_repeatedField (num : ℕ) (h : 0 < num ∧ num < 2 ^ 29) (bs : List Bytes) :
    ∀ f ∈ repeatedField num bs, f.Valid := by
  intro f hf
  obtain ⟨b, -, rfl⟩ := List.mem_map.mp hf
  exact ⟨h.1, h.2, trivial⟩

theorem valid_append {gs : List Field} (hf : ∀ f ∈ fs, f.Valid) (hg : ∀ f ∈ gs, f.Valid) :
    ∀ f ∈ fs ++ gs, f.Valid := by
  intro f h
  rcases List.mem_append.mp h with h | h
  · exact hf f h
  · exact hg f h

/-! ### Messages of many fields -/

inductive Content where
  | bytes (b : Bytes)
  | varint (n : ℕ)
  | repeated (bs : List Bytes)

def Content.fields (num : ℕ) : Content → List Field
  | .bytes b => bytesField num b
  | .varint n => varintField num n
  | .repeated bs => repeatedField num bs

/-- The records of a message, given its numbered fields. -/
def fieldsOf (es : List (ℕ × Content)) : List Field := es.flatMap fun e => e.2.fields e.1

theorem fieldsOf_cons (e : ℕ × Content) (es : List (ℕ × Content)) :
    fieldsOf (e :: es) = e.2.fields e.1 ++ fieldsOf es := List.flatMap_cons

def ValidEntry (e : ℕ × Content) : Prop := ∀ f ∈ e.2.fields e.1, f.Valid

variable {num : ℕ}

@[simp] theorem validEntry_bytes (h : 0 < num ∧ num < 2 ^ 29) (b : Bytes) :
    ValidEntry (num, .bytes b) := valid_bytesField num h b

theorem validEntry_varint {num n : ℕ} (h : 0 < num ∧ num < 2 ^ 29) (hn : n < 2 ^ 64) :
    ValidEntry (num, .varint n) := valid_varintField num h hn

@[simp] theorem validEntry_uint64 (h : 0 < num ∧ num < 2 ^ 29) (n : UInt64) :
    ValidEntry (num, .varint n.toNat) := validEntry_varint h n.toNat_lt

@[simp] theorem validEntry_bool (h : 0 < num ∧ num < 2 ^ 29) (b : Bool) :
    ValidEntry (num, .varint b.toNat) :=
  validEntry_varint h (Nat.lt_of_le_of_lt b.toNat_le (by decide))

@[simp] theorem validEntry_repeated (h : 0 < num ∧ num < 2 ^ 29) (bs : List Bytes) :
    ValidEntry (num, .repeated bs) := valid_repeatedField num h bs

variable {es : List (ℕ × Content)}

theorem valid_fieldsOf (h : ∀ e ∈ es, ValidEntry e) : ∀ f ∈ fieldsOf es, f.Valid := by
  intro f hf
  obtain ⟨e, he, hf⟩ := List.mem_flatMap.mp hf
  exact h e he f hf

theorem Format.decode_fieldsOf (F : Format)
    (h : ∀ e ∈ es, ValidEntry e) : F.decode (F.encode (fieldsOf es)) = some (fieldsOf es) :=
  F.decode_encode _ (valid_fieldsOf h)

section Lookup

variable {num : ℕ} {c : Content}

theorem getRepeated_content_ne {m : ℕ} (h : m ≠ num) : getRepeated num (c.fields m) = [] := by
  cases c with
  | bytes => rw [Content.fields, getRepeated_bytesField, if_neg h]
  | varint n => exact getRepeated_varintField n
  | repeated => rw [Content.fields, getRepeated_repeatedField, if_neg h]

theorem getVarints_content_ne {m : ℕ} (h : m ≠ num) : getVarints num (c.fields m) = [] := by
  cases c with
  | bytes b => exact getVarints_bytesField b
  | varint => rw [Content.fields, getVarints_varintField, if_neg h]
  | repeated bs => exact getVarints_repeatedField bs

/-- A reader that skips the other fields and adds up over records finds what the
field of its number holds. -/
theorem read_fieldsOf {α : Type} (read : List Field → List α) (hnil : read [] = [])
    (happend : ∀ fs gs, read (fs ++ gs) = read fs ++ read gs)
    (hskip : ∀ m c, m ≠ num → read (Content.fields m c) = [])
    (hnd : (es.map Prod.fst).Nodup) (h : (num, c) ∈ es) :
    read (fieldsOf es) = read (c.fields num) := by
  have hnone : ∀ es : List (ℕ × Content), num ∉ es.map Prod.fst → read (fieldsOf es) = [] := by
    intro es
    induction es with
    | nil => exact fun _ => hnil
    | cons e es ih =>
      intro hnum
      rw [List.map_cons, List.mem_cons, not_or] at hnum
      rw [fieldsOf_cons, happend, hskip _ _ (Ne.symm hnum.1), ih hnum.2, List.nil_append]
  induction es with
  | nil => simp at h
  | cons e es ih =>
    rw [List.map_cons, List.nodup_cons] at hnd
    rw [fieldsOf_cons, happend]
    rcases List.mem_cons.mp h with rfl | h
    · rw [hnone es hnd.1, List.append_nil]
    · have hne : e.1 ≠ num := by
        rintro rfl
        exact hnd.1 (List.mem_map.mpr ⟨_, h, rfl⟩)
      rw [hskip _ _ hne, List.nil_append, ih hnd.2 h]

variable (hnd : (es.map Prod.fst).Nodup)

include hnd

theorem getRepeated_fieldsOf {bs : List Bytes}
    (h : (num, .repeated bs) ∈ es) : getRepeated num (fieldsOf es) = bs := by
  rw [read_fieldsOf (getRepeated num) rfl getRepeated_append
    (fun _ _ => getRepeated_content_ne) hnd h, Content.fields, getRepeated_repeatedField,
    if_pos rfl]

theorem getBytes_fieldsOf {b : Bytes}
    (h : (num, .bytes b) ∈ es) : getBytes num (fieldsOf es) = b := by
  rw [getBytes, read_fieldsOf (getRepeated num) rfl getRepeated_append
    (fun _ _ => getRepeated_content_ne) hnd h, Content.fields, getRepeated_bytesField, if_pos rfl,
    getLast_bytes]

theorem getVarint_fieldsOf {n : ℕ}
    (h : (num, .varint n) ∈ es) : getVarint num (fieldsOf es) = n := by
  rw [getVarint, read_fieldsOf (getVarints num) rfl getVarints_append
    (fun _ _ => getVarints_content_ne) hnd h, Content.fields, getVarints_varintField, if_pos rfl,
    getLast_varint]

theorem getUint64_fieldsOf {x : UInt64}
    (h : (num, .varint x.toNat) ∈ es) : UInt64.ofNat (getVarint num (fieldsOf es)) = x := by
  rw [getVarint_fieldsOf hnd h, UInt64.ofNat_toNat]

end Lookup

/-! ### Lists of elements -/

section Elements

variable {α β : Type}

theorem mapM_eq_some_map {f : α → Option β} {g : α → β} {l : List α}
    (h : ∀ a ∈ l, f a = some (g a)) : l.mapM f = some (l.map g) := by
  induction l with
  | nil => rfl
  | cons a l ih =>
    rw [List.forall_mem_cons] at h
    rw [List.mapM_cons, h.1, ih h.2]
    rfl

theorem mapM_map_of_inverse {enc : α → β} {dec : β → Option α} {l : List α}
    (h : ∀ a ∈ l, dec (enc a) = some a) : (l.map enc).mapM dec = some l := by
  have hid : l.mapM (dec ∘ enc) = some (l.map id) := mapM_eq_some_map h
  rw [List.mapM_map, hid, List.map_id]

theorem mapM_getRepeated_fieldsOf (num : ℕ) (l : List α) {enc : α → Bytes}
    {dec : Bytes → Option α} (hdec : ∀ a, dec (enc a) = some a)
    (hnd : (es.map Prod.fst).Nodup) (h : (num, .repeated (l.map enc)) ∈ es) :
    (getRepeated num (fieldsOf es)).mapM dec = some l := by
  rw [getRepeated_fieldsOf hnd h, mapM_map_of_inverse fun a _ => hdec a]

end Elements

/-! ### Messages one after the other -/

def Format.Concatenates (F : Format) : Prop :=
  ∀ fs gs, F.encode (fs ++ gs) = F.encode fs ++ F.encode gs

theorem Format.Concatenates.encode_flatten {F : Format} (h : F.Concatenates)
    (groups : List (List Field)) : F.encode groups.flatten = (groups.map F.encode).flatten := by
  induction groups with
  | nil => exact F.encode_nil
  | cons fs groups ih => rw [List.flatten_cons, h, ih, List.map_cons, List.flatten_cons]

/-- The first record has the number `num`, and no other has. -/
def StartsWith (num : ℕ) (fs : List Field) : Prop :=
  ∃ v rest, fs = ⟨num, v⟩ :: rest ∧ ∀ f ∈ rest, f.num ≠ num

/-- **Messages that all start with one field are determined by their records.** -/
theorem eq_of_flatten_eq {groups groups' : List (List Field)}
    (h : ∀ fs ∈ groups, StartsWith num fs) (h' : ∀ fs ∈ groups', StartsWith num fs)
    (heq : groups.flatten = groups'.flatten) : groups = groups' := by
  -- what follows a message is nothing or the first record of the next one
  have hcut : ∀ (rest : List Field) (groups : List (List Field)), (∀ f ∈ rest, f.num ≠ num) →
      (∀ fs ∈ groups, StartsWith num fs) →
      (rest ++ groups.flatten).takeWhile (fun f => f.num ≠ num) = rest := by
    intro rest groups hrest hgroups
    rw [List.takeWhile_append_of_pos (by simpa using hrest)]
    cases groups with
    | nil => simp
    | cons fs =>
      obtain ⟨v, more, rfl, -⟩ := hgroups fs List.mem_cons_self
      simp
  induction groups generalizing groups' with
  | nil =>
    cases groups' with
    | nil => rfl
    | cons fs =>
      obtain ⟨v, rest, rfl, -⟩ := h' fs List.mem_cons_self
      simp at heq
  | cons fs groups ih =>
    rw [List.forall_mem_cons] at h
    obtain ⟨⟨v, rest, rfl, hrest⟩, hgroups⟩ := h
    cases groups' with
    | nil => simp at heq
    | cons fs' groups' =>
      rw [List.forall_mem_cons] at h'
      obtain ⟨⟨v', rest', rfl, hrest'⟩, hgroups'⟩ := h'
      simp only [List.flatten_cons, List.cons_append, List.cons.injEq] at heq
      obtain ⟨hv, htail⟩ := heq
      have hsame : rest = rest' := by
        rw [← hcut rest groups hrest hgroups, htail, hcut rest' groups' hrest' hgroups']
      subst hsame
      rw [hv, ih hgroups hgroups' (List.append_cancel_left htail)]

theorem num_of_mem_fields {c : Content} {f : Field} (hf : f ∈ c.fields num) : f.num = num := by
  cases c with
  | bytes b =>
    rw [Content.fields, bytesField] at hf
    split at hf <;> simp_all
  | varint n =>
    rw [Content.fields, varintField] at hf
    split at hf <;> simp_all
  | repeated =>
    obtain ⟨b, -, rfl⟩ := List.mem_map.mp hf
    rfl

theorem startsWith_fieldsOf {b : Bytes} (hb : b ≠ [])
    (hes : ∀ e ∈ es, e.1 ≠ num) : StartsWith num (fieldsOf ((num, .bytes b) :: es)) := by
  refine ⟨.bytes b, fieldsOf es, ?_, ?_⟩
  · simp [fieldsOf_cons, Content.fields, bytesField, hb]
  · intro f hf
    obtain ⟨e, he, hf⟩ := List.mem_flatMap.mp hf
    rw [num_of_mem_fields hf]
    exact hes e he

/-! ### The format -/

/-- `fuel` base-128 digits of `n`, the continuation bit set on all but the
last one. -/
def varintDigits : ℕ → ℕ → Bytes
  | 0, _ => []
  | fuel + 1, n =>
    if n < 128 then [UInt8.ofNat n]
    else UInt8.ofNat (n % 128 + 128) :: varintDigits fuel (n / 128)

def encodeVarint (n : ℕ) : Bytes := varintDigits (n + 1) n

def decodeVarint : Bytes → Option (ℕ × Bytes)
  | [] => none
  | b :: bs =>
    if b.toNat < 128 then some (b.toNat, bs)
    else match decodeVarint bs with
      | some (n, r) => some (b.toNat - 128 + 128 * n, r)
      | none => none

theorem decodeVarint_digits : ∀ {fuel n : ℕ}, n < fuel → ∀ r,
    decodeVarint (varintDigits fuel n ++ r) = some (n, r) := by
  intro fuel
  induction fuel with
  | zero => intro n h; omega
  | succ fuel ih =>
    intro n h r
    rw [varintDigits]
    split
    · rename_i hn
      have htoNat : (UInt8.ofNat n).toNat = n := by
        rw [UInt8.toNat_ofNat']
        omega
      simp only [List.singleton_append, decodeVarint, htoNat, if_pos hn]
    · rename_i hn
      have htoNat : (UInt8.ofNat (n % 128 + 128)).toNat = n % 128 + 128 := by
        rw [UInt8.toNat_ofNat']
        omega
      simp only [List.cons_append, decodeVarint, htoNat, ih (show n / 128 < fuel by omega)]
      rw [if_neg (by omega)]
      simp only [Option.some.injEq, Prod.mk.injEq, and_true]
      omega

theorem decodeVarint_encodeVarint (n : ℕ) (r : Bytes) :
    decodeVarint (encodeVarint n ++ r) = some (n, r) :=
  decodeVarint_digits (Nat.lt_succ_self n) r

theorem encodeVarint_ne_nil (n : ℕ) : encodeVarint n ≠ [] := by
  rw [encodeVarint, varintDigits]
  split <;> simp

def encodeValue : Value → ℕ × Bytes
  | .varint n => (0, encodeVarint n)
  | .fixed64 b => (1, b)
  | .bytes b => (2, encodeVarint b.length ++ b)
  | .fixed32 b => (5, b)

def encodeField (f : Field) : Bytes :=
  encodeVarint (8 * f.num + (encodeValue f.val).1) ++ (encodeValue f.val).2

/-- Cuts `n` bytes off the input. -/
def takeBytes (n : ℕ) (b : Bytes) : Option (Bytes × Bytes) :=
  if n ≤ b.length then some (b.take n, b.drop n) else none

theorem takeBytes_append (b r : Bytes) : takeBytes b.length (b ++ r) = some (b, r) := by
  simp [takeBytes]

def decodeValue (wireType : ℕ) (b : Bytes) : Option (Value × Bytes) :=
  match wireType with
  | 0 => (decodeVarint b).map fun x => (.varint x.1, x.2)
  | 1 => (takeBytes 8 b).map fun x => (.fixed64 x.1, x.2)
  | 2 => (decodeVarint b).bind fun x => (takeBytes x.1 x.2).map fun y => (.bytes y.1, y.2)
  | 5 => (takeBytes 4 b).map fun x => (.fixed32 x.1, x.2)
  | _ => none

def decodeField (b : Bytes) : Option (Field × Bytes) :=
  (decodeVarint b).bind fun x =>
    if x.1 / 8 = 0 then none
    else (decodeValue (x.1 % 8) x.2).map fun y => (⟨x.1 / 8, y.1⟩, y.2)

theorem decodeValue_encodeValue {v : Value} (h : v.Valid) (r : Bytes) :
    decodeValue (encodeValue v).1 ((encodeValue v).2 ++ r) = some (v, r) := by
  cases v with
  | varint => simp [encodeValue, decodeValue, decodeVarint_encodeVarint]
  | fixed64 b =>
    have ht := takeBytes_append b r
    rw [show b.length = 8 from h] at ht
    simp [encodeValue, decodeValue, ht]
  | bytes =>
    simp [encodeValue, decodeValue, decodeVarint_encodeVarint, takeBytes_append]
  | fixed32 b =>
    have ht := takeBytes_append b r
    rw [show b.length = 4 from h] at ht
    simp [encodeValue, decodeValue, ht]

theorem decodeField_encodeField {f : Field} (h : f.Valid) (r : Bytes) :
    decodeField (encodeField f ++ r) = some (f, r) := by
  have hw : (encodeValue f.val).1 < 8 := by
    cases f.val <;> simp [encodeValue]
  have hnum := h.1
  have hdiv : (8 * f.num + (encodeValue f.val).1) / 8 = f.num := by omega
  have hmod : (8 * f.num + (encodeValue f.val).1) % 8 = (encodeValue f.val).1 := by omega
  rw [encodeField, List.append_assoc, decodeField, decodeVarint_encodeVarint]
  simp only [Option.bind_some, hdiv, hmod, decodeValue_encodeValue h.2.2]
  rw [if_neg (by omega)]
  rfl

def encodeFields (fs : List Field) : Bytes := fs.flatMap encodeField

def decodeFields : ℕ → Bytes → Option (List Field)
  | _, [] => some []
  | 0, _ :: _ => none
  | fuel + 1, b :: bs =>
    (decodeField (b :: bs)).bind fun x => (decodeFields fuel x.2).map fun fs => x.1 :: fs

theorem decodeFields_encodeFields (h : ∀ f ∈ fs, f.Valid) :
    ∀ {fuel : ℕ}, fs.length ≤ fuel → decodeFields fuel (encodeFields fs) = some fs := by
  induction fs with
  | nil =>
    intro fuel _
    cases fuel <;> rfl
  | cons f fs ih =>
    intro fuel hfuel
    obtain ⟨fuel, rfl⟩ : ∃ k, fuel = k + 1 :=
      ⟨fuel - 1, by simp only [List.length_cons] at hfuel; omega⟩
    have hne : encodeField f ++ encodeFields fs ≠ [] := by
      simp [encodeField, encodeVarint_ne_nil]
    obtain ⟨b, bs, hb⟩ := List.exists_cons_of_ne_nil hne
    have hcons : encodeFields (f :: fs) = encodeField f ++ encodeFields fs := rfl
    rw [hcons, hb, decodeFields, ← hb,
      decodeField_encodeField (h f List.mem_cons_self)]
    simp only [List.length_cons, Nat.add_le_add_iff_right] at hfuel
    rw [Option.bind_some, ih (fun g hg => h g (List.mem_cons_of_mem f hg)) hfuel]
    rfl

theorem length_le_encodeFields (fs : List Field) : fs.length ≤ (encodeFields fs).length := by
  induction fs with
  | nil => simp
  | cons f fs ih =>
    have hpos : 0 < (encodeField f).length := by
      rw [List.length_pos_iff]
      simp [encodeField, encodeVarint_ne_nil]
    simp only [encodeFields, List.flatMap_cons, List.length_append, List.length_cons] at ih ⊢
    omega

theorem length_lt_encodeFields {b : Bytes} (h : ⟨num, .bytes b⟩ ∈ fs) :
    b.length < (encodeFields fs).length := by
  obtain ⟨pre, post, rfl⟩ := List.append_of_mem h
  have hpos : 0 < (encodeVarint (8 * num + 2)).length :=
    List.length_pos_iff.mpr (encodeVarint_ne_nil _)
  simp only [encodeFields, encodeField, encodeValue, List.flatMap_append, List.flatMap_cons,
    List.length_append]
  omega

def leb : Format where
  encode := encodeFields
  decode b := decodeFields b.length b
  encode_nil := rfl
  decode_encode fs h := decodeFields_encodeFields h (length_le_encodeFields fs)

theorem leb_concatenates : leb.Concatenates := fun _ _ => List.flatMap_append

end Wire
