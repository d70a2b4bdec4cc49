/-
The document of a product (`web3/dapp/full-db-dapp/contracs/FullDB.sol`).

`addProduct` gives `newDocument` a JSON text that it puts together itself.  The seven text fields of
a product stand in it as they are; only the colors and filters go through `escapeJsonString`, which
escapes quotes and backslashes.  A string of the contract is any string of bytes.  The loop
with its buffer escapes byte by byte (`escapeJsonString_eq`).
-/
import MetaNode.Json
import MetaNode.Receipt

namespace MetaNode.FullDb

open Json

/-! ### The contract -/

/-- The loop of `escapeJsonString`. -/
def escapeLoop : Bytes → Bytes → ℕ → Option (Bytes × ℕ)
  | [], result, resultIdx => some (result, resultIdx)
  | c :: s, result, resultIdx =>
    if c = quote ∨ c = backslash then do
      let result ← putByte result resultIdx backslash
      let result ← putByte result (resultIdx + 1) c
      escapeLoop s result (resultIdx + 2)
    else do
      let result ← putByte result resultIdx c
      escapeLoop s result (resultIdx + 1)

/-- `escapeJsonString`; an index out of range reverts. -/
def escapeJsonString (s : Bytes) : Option Bytes :=
  (escapeLoop s (List.replicate (s.length * 2) 0) 0).map fun x => x.1.take x.2

/-- The loop of `buildJsonStringArray`. -/
def arrayLoop : List Bytes → Bytes → Option Bytes
  | [], result => some result
  | item :: items, result => do
    let result := result ++ quote :: ((← escapeJsonString item) ++ [quote])
    arrayLoop items (if items = [] then result else result ++ [comma])

def buildJsonStringArray (items : List Bytes) : Option Bytes :=
  (arrayLoop items [0x5b]).map fun result => result ++ [0x5d]

structure ProductInputData where
  title : Bytes
  category : Bytes
  brand : Bytes
  price : Bytes
  discountPrice : Bytes
  description : Bytes
  content : Bytes
  colors : List Bytes
  filters : List Bytes

variable (p : ProductInputData)

def ProductInputData.texts : List (Bytes × Bytes) :=
  [(asciiBytes "title", p.title), (asciiBytes "category", p.category),
    (asciiBytes "brand", p.brand), (asciiBytes "price", p.price),
    (asciiBytes "discountPrice", p.discountPrice), (asciiBytes "description", p.description),
    (asciiBytes "content", p.content)]

/-- A text field, as it is written: `"name":"text",`. -/
def textMember (f : Bytes × Bytes) : Bytes :=
  quote :: (f.1 ++ quote :: 0x3a :: quote :: (f.2 ++ [quote, comma]))

def buildProductJson : Option Bytes := do
  return 0x7b :: (p.texts.flatMap textMember ++
    (quote :: (asciiBytes "colors" ++ quote :: 0x3a :: (← buildJsonStringArray p.colors)) ++
      comma :: quote :: (asciiBytes "filters" ++ quote :: 0x3a ::
        (← buildJsonStringArray p.filters)) ++ [0x7d]))

/-- The document that `addProduct` stores: what `_indexProduct` gives to `newDocument`. -/
def addProductDocument : Option Bytes := buildProductJson p

/-! ### Loops -/

theorem escapeLoop_eq (s done room : Bytes) (h : 2 * s.length ≤ room.length) :
    ∃ rest, escapeLoop s (done ++ room) done.length =
      some (done ++ (s.flatMap escaped ++ rest), done.length + (s.flatMap escaped).length) := by
  induction s generalizing done room with
  | nil => exact ⟨room, rfl⟩
  | cons c s ih =>
    rw [List.length_cons] at h
    obtain ⟨x, room, rfl⟩ := List.exists_cons_of_length_pos (l := room) (by omega)
    rw [List.length_cons] at h
    rw [escapeLoop, List.flatMap_cons, escaped]
    split
    · obtain ⟨y, room, rfl⟩ := List.exists_cons_of_length_pos (l := room) (by omega)
      rw [List.length_cons] at h
      have hnext := putByte_append (done ++ [backslash]) room y c
      obtain ⟨rest, hrest⟩ := ih (done ++ [backslash, c]) room (by omega)
      simp only [List.append_assoc, List.length_append, List.length_cons, List.length_nil,
        List.cons_append, List.nil_append] at hnext hrest
      refine ⟨rest, ?_⟩
      simp only [putByte_append, Option.bind_eq_bind, Option.bind_some, hnext, hrest,
        List.cons_append, List.nil_append, List.length_cons]
      rw [show done.length + (0 + 1 + 1) + (s.flatMap escaped).length =
        done.length + ((s.flatMap escaped).length + 1 + 1) by omega]
    · obtain ⟨rest, hrest⟩ := ih (done ++ [c]) room (by omega)
      simp only [List.append_assoc, List.length_append, List.length_cons, List.length_nil,
        List.cons_append, List.nil_append] at hrest
      refine ⟨rest, ?_⟩
      simp only [putByte_append, Option.bind_eq_bind, Option.bind_some, hrest, List.cons_append,
        List.nil_append, List.length_cons]
      rw [show done.length + (0 + 1) + (s.flatMap escaped).length =
        done.length + ((s.flatMap escaped).length + 1) by omega]

theorem escapeJsonString_eq (s : Bytes) : escapeJsonString s = some (s.flatMap escaped) := by
  obtain ⟨rest, hrest⟩ := escapeLoop_eq s [] (List.replicate (s.length * 2) 0)
    (by rw [List.length_replicate]; omega)
  rw [escapeJsonString, ← List.nil_append (List.replicate _ _), ← List.length_nil, hrest]
  simp

theorem arrayLoop_eq (items : List Bytes) (result : Bytes) :
    arrayLoop items result = some (result ++ stringElements items) := by
  fun_induction stringElements generalizing result with
  | case1 => rw [List.append_nil, arrayLoop]
  | case2 s => simp [arrayLoop, escapeJsonString_eq]
  | case3 s rest hrest ih =>
    simp [arrayLoop, escapeJsonString_eq, ih, show rest ≠ [] from hrest]

theorem buildJsonStringArray_eq (items : List Bytes) :
    buildJsonStringArray items = some (0x5b :: (stringElements items ++ [0x5d])) := by
  rw [buildJsonStringArray, arrayLoop_eq]
  rfl

/-! ### The document -/

/-- The colors and filters as members of an object. -/
def ProductInputData.arrays : List (Bytes × Json) :=
  [(asciiBytes "colors", .array (p.colors.map .string)),
    (asciiBytes "filters", .array (p.filters.map .string))]

def ProductInputData.json : Json :=
  .object (p.texts.map (fun f => (f.1, .string f.2)) ++ p.arrays)

def names : Json → List Bytes
  | .object members => members.map Prod.fst
  | _ => []

/-- The text of the colors and filters, from after the first quote. -/
def arraysText : Bytes :=
  asciiBytes "colors" ++ quote :: 0x3a :: 0x5b :: (stringElements p.colors ++ 0x5d :: comma ::
    quote :: (asciiBytes "filters" ++ quote :: 0x3a :: 0x5b ::
      (stringElements p.filters ++ [0x5d, 0x7d])))

theorem addProductDocument_eq : addProductDocument p =
    some (0x7b :: (p.texts.flatMap textMember ++ quote :: arraysText p)) := by
  rw [addProductDocument, buildProductJson, buildJsonStringArray_eq, buildJsonStringArray_eq]
  simp [arraysText]

theorem literal_names :
    (∀ f ∈ p.texts, Literal f.1) ∧ Literal (asciiBytes "colors") ∧
      Literal (asciiBytes "filters") := by
  have hliteral : ∀ name ∈ [asciiBytes "colors", asciiBytes "filters", asciiBytes "title",
      asciiBytes "category", asciiBytes "brand", asciiBytes "price", asciiBytes "discountPrice",
      asciiBytes "description", asciiBytes "content"], Literal name := by
    decide +kernel
  obtain ⟨hcolors, hfilters, hnames⟩ :=
    (List.forall_mem_cons.trans (and_congr_right fun _ => List.forall_mem_cons)).mp hliteral
  exact ⟨fun f hf => hnames _ (List.mem_map_of_mem (f := Prod.fst) hf), hcolors, hfilters⟩

/-- **Text by text**: a text is read as it is just if it is a literal, and then the next member
is read. -/
theorem members_texts (n : ℕ) {fs : List (Bytes × Bytes)} (hnames : ∀ f ∈ fs, Literal f.1)
    {r r' : Bytes} {ms : List (Bytes × Json)} :
    members (n + fs.length + 1) (fs.flatMap textMember ++ quote :: r) =
        some (fs.map (fun f => (f.1, .string f.2)) ++ ms, r') ↔
      (∀ f ∈ fs, Literal f.2) ∧ members (n + 1) (quote :: r) = some (ms, r') := by
  induction fs with
  | nil => simp
  | cons f fs ih =>
    obtain ⟨hname, hnames⟩ := List.forall_mem_cons.mp hnames
    obtain ⟨rest, hrest⟩ : ∃ rest, fs.flatMap textMember ++ quote :: r = quote :: rest := by
      cases fs with
      | nil => exact ⟨r, rfl⟩
      | cons => exact ⟨_, rfl⟩
    have hsplit : (f :: fs).flatMap textMember ++ quote :: r = quote :: (f.1 ++ quote :: 0x3a ::
        quote :: (f.2 ++ quote :: comma :: quote :: rest)) := by
      rw [← hrest, List.flatMap_cons, textMember]
      simp
    have hnext : Literal f.2 → members (n + fs.length + 1 + 1) ((f :: fs).flatMap textMember
        ++ quote :: r) = (members (n + fs.length + 1) (quote :: rest)).map fun xs =>
          ((f.1, .string f.2) :: xs.1, xs.2) := by
      intro hliteral
      rw [hsplit, members_named hname, value_quote, text_literal hliteral]
      rfl
    rw [List.length_cons, ← Nat.add_assoc, List.forall_mem_cons, and_assoc, ← ih hnames, hrest]
    constructor
    · intro h
      have hliteral : Literal f.2 := by
        rw [hsplit, members_named hname, value_quote] at h
        cases htext : text (f.2 ++ quote :: comma :: quote :: rest) with
        | none =>
          rw [htext] at h
          cases h
        | some y =>
          rw [htext] at h
          -- whatever follows, the first member has the text that was read
          have hfirst : y.1 = f.2 := by
            simp only [Option.map_some] at h
            split at h
            · obtain ⟨xs, -, heq⟩ := Option.map_eq_some_iff.mp h
              simpa using (List.cons.inj (Prod.mk.inj heq).1).1
            · obtain ⟨xs, -, heq⟩ := Option.map_eq_some_iff.mp h
              simpa using (List.cons.inj (Prod.mk.inj heq).1).1
          have hread : text (f.2 ++ quote :: comma :: quote :: rest) = some (f.2, y.2) := by
            rw [htext, ← hfirst]
          exact (text_unescaped_iff.mp hread).1
      rw [hnext hliteral] at h
      obtain ⟨⟨xs, r''⟩, hxs, heq⟩ := Option.map_eq_some_iff.mp h
      obtain ⟨hms, rfl⟩ := Prod.mk.inj heq
      dsimp only at hms
      rw [hxs, (List.cons.inj hms).2]
      exact ⟨hliteral, rfl⟩
    · rintro ⟨hliteral, h⟩
      rw [hnext hliteral, h]
      rfl

theorem members_arrays {n : ℕ} (hcs : p.colors.length + 2 ≤ n) (hfs : p.filters.length + 3 ≤ n) :
    members (n + 1) (quote :: arraysText p) =
      if (∀ s ∈ p.colors, Clean s) ∧ ∀ s ∈ p.filters, Clean s then some (p.arrays, [])
      else none := by
  obtain ⟨k, rfl⟩ := Nat.exists_eq_add_of_le' hcs
  obtain ⟨m, hm⟩ := Nat.exists_eq_add_of_le' hfs
  obtain ⟨-, hcname, hfname⟩ := literal_names p
  rw [arraysText, members_named hcname, ← Nat.add_assoc k, value_strings]
  by_cases hcolors : ∀ s ∈ p.colors, Clean s
  · rw [if_pos hcolors]
    show (members (k + p.colors.length + 2) _).map _ = _
    rw [show k + p.colors.length + 2 = m + p.filters.length + 2 + 1 by omega, members_named hfname,
      value_strings]
    simp only [and_iff_right hcolors]
    by_cases hfilters : ∀ s ∈ p.filters, Clean s
    · rw [if_pos hfilters, if_pos hfilters]
      rfl
    · rw [if_neg hfilters, if_neg hfilters]
      rfl
  · rw [if_neg hcolors, if_neg fun h => hcolors h.1]

/-- The length of the document is enough for its members and for the elements of both arrays. -/
theorem exists_fuel :
    ∃ n, (0x7b :: (p.texts.flatMap textMember ++ quote :: arraysText p)).length =
        n + p.texts.length + 1 + 1 ∧
      p.colors.length + 2 ≤ n ∧ p.filters.length + 3 ≤ n := by
  have hcolors := length_le_stringElements p.colors
  have hfilters := length_le_stringElements p.filters
  have htexts : 35 ≤ (p.texts.flatMap textMember).length := by
    simp only [ProductInputData.texts, textMember, List.flatMap_cons, List.flatMap_nil,
      List.length_append, List.length_cons, List.length_nil]
    omega
  refine ⟨(p.texts.flatMap textMember).length + (arraysText p).length - 7, ?_, ?_, ?_⟩ <;>
    simp only [arraysText, List.length_append, List.length_cons, List.length_nil,
      ProductInputData.texts] at * <;>
    omega

/-- **The document of a product** is JSON that decodes to exactly its fields just if the text
fields may stand as they are and the colors and filters have no control character. -/
theorem addProduct_decodes_iff (p : ProductInputData) :
    (∃ doc, addProductDocument p = some doc ∧ decode doc = some p.json) ↔
      (∀ f ∈ p.texts, Literal f.2) ∧ (∀ s ∈ p.colors, Clean s) ∧ ∀ s ∈ p.filters, Clean s := by
  obtain ⟨n, hfuel, hcs, hfs⟩ := exists_fuel p
  obtain ⟨b, hb⟩ : ∃ b, p.texts.flatMap textMember ++ quote :: arraysText p = quote :: b := ⟨_, rfl⟩
  have hmembers : ∀ r, members (n + p.texts.length + 1) (quote :: b) =
      some (p.texts.map (fun f => (f.1, .string f.2)) ++ p.arrays, r) ↔
        (∀ f ∈ p.texts, Literal f.2) ∧ members (n + 1) (quote :: arraysText p) =
          some (p.arrays, r) := by
    intro r
    rw [← hb]
    exact members_texts n (literal_names p).1
  rw [members_arrays p hcs hfs] at hmembers
  rw [addProductDocument_eq]
  constructor
  · rintro ⟨doc, hdoc, hdecode⟩
    obtain rfl := Option.some.inj hdoc
    rw [decode, hfuel, hb, value_object] at hdecode
    cases hobject : members (n + p.texts.length + 1) (quote :: b) with
    | none =>
      rw [hobject] at hdecode
      cases hdecode
    | some x =>
      obtain ⟨xs, r⟩ := x
      rw [hobject] at hdecode hmembers
      obtain ⟨-, heq⟩ := Option.ite_none_right_eq_some.mp
        (show (if skipSpace r = [] then some (Json.object xs) else none) = _ from hdecode)
      obtain rfl := Json.object.inj (Option.some.inj heq)
      obtain ⟨htexts, harrays⟩ := (hmembers r).mp rfl
      split at harrays
      · next hclean => exact ⟨htexts, hclean⟩
      · cases harrays
  · rintro ⟨htexts, hclean⟩
    refine ⟨_, rfl, ?_⟩
    rw [decode, hfuel, hb, value_object, (hmembers []).mpr ⟨htexts, if_pos hclean⟩]
    rfl

def shirt (title : Bytes) (colors : List Bytes) : ProductInputData where
  title := title
  category := []
  brand := []
  price := asciiBytes "9"
  discountPrice := []
  description := []
  content := []
  colors := colors
  filters := []

/-- A title that closes its string adds a price to the product. -/
theorem addProduct_injects :
    ((addProductDocument (shirt (asciiBytes "x\",\"price\":\"0") [])).bind decode).map names =
      some [asciiBytes "title", asciiBytes "price", asciiBytes "category", asciiBytes "brand",
        asciiBytes "price", asciiBytes "discountPrice", asciiBytes "description",
        asciiBytes "content", asciiBytes "colors", asciiBytes "filters"] := by
  decide +kernel

end MetaNode.FullDb
