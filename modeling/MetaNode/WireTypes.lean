/-
Enums, strings and maps on the wire.

An enum is a 32-bit integer and is sent with its sign extended to 64 bits.  A
string has to be UTF-8, both for the writer and for the reader.  A map is a
repeated field of entries, each with its key and its value; of two entries with
the same key the last one counts, and the order in which a map is written is
that of its entries, or that of its keys where the writer is asked to be
deterministic (`writeSorted`).
-/
import Mathlib.Algebra.Group.Int.Defs
import Mathlib.Data.List.Sort
import MetaNode.GoMap
import MetaNode.Wire

namespace Wire

open MetaNode (Bytes)

/-! ### Enums -/

def ofInt32 (x : Int32) : ℕ := (x.toInt % 2 ^ 64).toNat

def toInt32 (n : ℕ) : Int32 := Int32.ofNat n

@[simp] theorem toInt32_ofInt32 (x : Int32) : toInt32 (ofInt32 x) = x := by
  have hle := x.le_toInt
  have hlt := x.toInt_lt
  have hsize : (Int32.size : ℤ) = 2 ^ 32 := rfl
  rw [toInt32, ofInt32, ← Int32.toInt_inj, Int32.toInt_ofNat', Int.bmod_def, hsize]
  omega

theorem getInt32_fieldsOf {es : List (ℕ × Content)} (hnd : (es.map Prod.fst).Nodup) {num : ℕ}
    {x : Int32} (h : (num, .varint (ofInt32 x)) ∈ es) :
    toInt32 (getVarint num (fieldsOf es)) = x := by
  rw [getVarint_fieldsOf hnd h, toInt32_ofInt32]

theorem ofInt32_lt (x : Int32) : ofInt32 x < 2 ^ 64 := by
  unfold ofInt32
  omega

@[simp] theorem validEntry_int32 {num : ℕ} (h : 0 < num ∧ num < 2 ^ 29) (x : Int32) :
    ValidEntry (num, .varint (ofInt32 x)) := validEntry_varint h (ofInt32_lt x)

/-! ### Strings -/

def utf8Tail (b : UInt8) : Bool := 0x80 ≤ b && b ≤ 0xBF

/-- `utf8.Valid`: no overlong forms, no surrogates, nothing above `U+10FFFF`. -/
def validUtf8 : Bytes → Bool
  | [] => true
  | a :: bs =>
    if a < 0x80 then validUtf8 bs
    else
      match bs with
      | [] => false
      | b :: bs =>
        if 0xC2 ≤ a && a ≤ 0xDF then utf8Tail b && validUtf8 bs
        else
          match bs with
          | [] => false
          | c :: bs =>
            if a = 0xE0 then 0xA0 ≤ b && b ≤ 0xBF && utf8Tail c && validUtf8 bs
            else if a = 0xED then 0x80 ≤ b && b ≤ 0x9F && utf8Tail c && validUtf8 bs
            else if 0xE1 ≤ a && a ≤ 0xEF then utf8Tail b && utf8Tail c && validUtf8 bs
            else
              match bs with
              | [] => false
              | d :: bs =>
                if a = 0xF0 then 0x90 ≤ b && b ≤ 0xBF && utf8Tail c && utf8Tail d && validUtf8 bs
                else if a = 0xF4 then
                  0x80 ≤ b && b ≤ 0x8F && utf8Tail c && utf8Tail d && validUtf8 bs
                else if 0xF1 ≤ a && a ≤ 0xF3 then
                  utf8Tail b && utf8Tail c && utf8Tail d && validUtf8 bs
                else false

theorem validUtf8_of_ascii {b : Bytes} (h : ∀ c ∈ b, c < 0x80) : validUtf8 b := by
  induction b with
  | nil => rfl
  | cons c b ih =>
    rw [List.forall_mem_cons] at h
    rw [validUtf8.eq_def]
    simp only [h.1, if_true]
    exact ih h.2

/-! ### Maps -/

abbrev ByteMap := AList fun _ : Bytes => Bytes

namespace ByteMap

def Same (m m' : ByteMap) : Prop := ∀ k, m.lookup k = m'.lookup k

variable (m : ByteMap)

/-- One entry after the other is put into a map. -/
def insertAll (es : List (Bytes × Bytes)) : ByteMap :=
  es.foldl (fun m e => m.insert e.1 e.2) m

/-- The entries in the order in which they are walked. -/
def toList : List (Bytes × Bytes) := m.entries.map fun e => (e.1, e.2)

theorem lookup_insertAll (es : List (Bytes × Bytes)) (m : ByteMap)
    (hnd : (es.map Prod.fst).Nodup) (k : Bytes) :
    (m.insertAll es).lookup k = (es.lookup k).or (m.lookup k) := by
  induction es generalizing m with
  | nil => rfl
  | cons e es ih =>
    obtain ⟨k', v⟩ := e
    rw [List.map_cons, List.nodup_cons] at hnd
    show (insertAll (m.insert k' v) es).lookup k = _
    rw [ih _ hnd.2, List.lookup_cons]
    by_cases hk : k = k'
    · subst hk
      -- the later entries have other keys
      have hnone : es.lookup k = none := by
        rw [List.lookup_eq_none_iff]
        intro e he
        rw [bne_iff_ne]
        rintro rfl
        exact hnd.1 (List.mem_map.mpr ⟨e, he, rfl⟩)
      simp [hnone, AList.lookup_insert]
    · rw [beq_eq_false_iff_ne.mpr hk, AList.lookup_insert_ne hk]

theorem nodup_toList : (m.toList.map Prod.fst).Nodup := by
  have hkeys : m.toList.map Prod.fst = m.keys := by
    simp [toList, AList.keys, List.keys]
  rw [hkeys]
  exact m.keys_nodup

theorem lookup_toList (k : Bytes) : m.toList.lookup k = m.lookup k := by
  unfold toList AList.lookup
  induction m.entries with
  | nil => rfl
  | cons e es ih =>
    obtain ⟨k', v⟩ := e
    rw [List.map_cons, List.lookup_cons]
    by_cases hk : k = k'
    · subst hk
      simp
    · rw [beq_eq_false_iff_ne.mpr hk, List.dlookup_cons_ne _ _ hk]
      exact ih

theorem same_insertAll : ((∅ : ByteMap).insertAll m.toList).Same m := by
  intro k
  rw [lookup_insertAll _ _ m.nodup_toList, lookup_toList]
  simp

end ByteMap

variable (F : Format)

/-- An entry is sent with its key and its value, also where they are empty. -/
def mapEntry (e : Bytes × Bytes) : Bytes := F.encode [⟨1, .bytes e.1⟩, ⟨2, .bytes e.2⟩]

def readMapEntry (b : Bytes) : Option (Bytes × Bytes) := do
  let fs ← F.decode b
  if validUtf8 (getBytes 1 fs) then some (getBytes 1 fs, getBytes 2 fs) else none

/-- The records of a map, in the order of its entries. -/
def writeMap (m : ByteMap) : List Bytes := m.toList.map (mapEntry F)

def readMap (bs : List Bytes) : Option ByteMap :=
  (bs.mapM (readMapEntry F)).map (∅ : ByteMap).insertAll

theorem readMapEntry_mapEntry {e : Bytes × Bytes} (h : validUtf8 e.1) :
    readMapEntry F (mapEntry F e) = some e := by
  have hvalid : ∀ f ∈ [(⟨1, .bytes e.1⟩ : Field), ⟨2, .bytes e.2⟩], f.Valid := by
    simp [Field.Valid, Value.Valid]
  rw [readMapEntry, mapEntry, F.decode_encode _ hvalid]
  have hkey : getBytes 1 [(⟨1, .bytes e.1⟩ : Field), ⟨2, .bytes e.2⟩] = e.1 := rfl
  have hvalue : getBytes 2 [(⟨1, .bytes e.1⟩ : Field), ⟨2, .bytes e.2⟩] = e.2 := rfl
  simp [hkey, hvalue, h]

theorem readMap_writeMap {m : ByteMap} (h : ∀ k ∈ m.keys, validUtf8 k) :
    ∃ m', readMap F (writeMap F m) = some m' ∧ ByteMap.Same m' m := by
  have hkeys : ∀ e ∈ m.toList, validUtf8 e.1 := by
    intro e he
    apply h
    obtain ⟨e', he', rfl⟩ := List.mem_map.mp he
    exact List.mem_map.mpr ⟨e', he', rfl⟩
  refine ⟨_, ?_, m.same_insertAll⟩
  rw [readMap, writeMap, mapM_map_of_inverse fun e he => readMapEntry_mapEntry F (hkeys e he),
    Option.map_some]

/-! ### Maps in the order of their keys -/

variable {V : Type} (enc : V → Bytes) (dec : Bytes → Option V)

def writeSorted (m : AList fun _ : Bytes => V) : List Bytes :=
  (m.entries.insertionSort fun e e' => e.1 ≤ e'.1).map fun e => mapEntry F (e.1, enc e.2)

def readEntry (b : Bytes) : Option (Sigma fun _ : Bytes => V) := do
  let e ← readMapEntry F b
  let v ← dec e.2
  pure ⟨e.1, v⟩

def readEntries (bs : List Bytes) : Option (AList fun _ : Bytes => V) :=
  (bs.mapM (readEntry F dec)).map (GoMap.insertAll ∅)

theorem readEntries_writeSorted {m : AList fun _ : Bytes => V} (h : ∀ k ∈ m.keys, validUtf8 k)
    (hdec : ∀ v, dec (enc v) = some v) :
    ∃ m', readEntries F dec (writeSorted F enc m) = some m' ∧ ∀ k, m'.lookup k = m.lookup k := by
  have hentry : ∀ e : Sigma fun _ : Bytes => V, validUtf8 e.1 →
      readEntry F dec (mapEntry F (e.1, enc e.2)) = some e := by
    intro e he
    rw [readEntry, readMapEntry_mapEntry F (e := (e.1, enc e.2)) he]
    simp [hdec]
  have hperm := List.perm_insertionSort (fun e e' : Sigma fun _ : Bytes => V => e.1 ≤ e'.1)
    m.entries
  refine ⟨_, ?_, GoMap.lookup_insertAll_perm hperm⟩
  rw [readEntries, writeSorted, mapM_map_of_inverse fun e he => hentry e (h e.1 ?_),
    Option.map_some]
  exact List.mem_map_of_mem (hperm.mem_iff.mp he)

theorem writeSorted_congr {m m' : AList fun _ : Bytes => V} (h : ∀ k, m.lookup k = m'.lookup k) :
    writeSorted F enc m = writeSorted F enc m' := by
  have hsorted : ∀ m : AList fun _ : Bytes => V,
      (m.entries.insertionSort fun e e' => e.1 ≤ e'.1).Pairwise fun e e' => e.1 ≤ e'.1 := by
    intro m
    have : Std.Total fun e e' : Sigma fun _ : Bytes => V => e.1 ≤ e'.1 :=
      ⟨fun e e' => List.le_total e.1 e'.1⟩
    have : IsTrans (Sigma fun _ : Bytes => V) fun e e' => e.1 ≤ e'.1 :=
      ⟨fun e e' e'' => List.le_trans⟩
    exact List.pairwise_insertionSort _ m.entries
  have hperm := fun m : AList fun _ : Bytes => V =>
    List.perm_insertionSort (fun e e' : Sigma fun _ : Bytes => V => e.1 ≤ e'.1) m.entries
  have hentries : m.entries.Perm m'.entries := by
    refine List.lookup_ext m.nodupKeys m'.nodupKeys fun k v => ?_
    rw [show m.entries.dlookup k = m'.entries.dlookup k from h k]
  have hsame : (m.entries.insertionSort fun e e' => e.1 ≤ e'.1)
      = m'.entries.insertionSort fun e e' => e.1 ≤ e'.1 := by
    refine List.Perm.eq_of_pairwise ?_ (hsorted m) (hsorted m')
      ((hperm m).trans (hentries.trans (hperm m').symm))
    -- two entries of one map with the same key are the same
    intro e e' he he' hle hge
    have hmem := (hentries.mem_iff.mp ((hperm m).mem_iff.mp he))
    exact List.NodupKeys.eq_of_fst_eq m'.nodupKeys hmem ((hperm m').mem_iff.mp he')
      (List.le_antisymm hle hge)
  rw [writeSorted, writeSorted, hsame]
end Wire
