/-
The file that is compiled (`pkg/complier/complier.go`).

The metadata of a contract names the file of its compilation target.  If the source code has
no file of that name, the compiler takes the first one, in the order in which the map is
walked, whose path ends in the name.  It then asks whether the file it took is in the map,
but with the test the wrong way round: if it is there, it is replaced by the first file of
another walk.
-/
import Mathlib.Data.List.Infix
import MetaNode.Receipt

namespace MetaNode.Complier

abbrev SourceCodeMap := AList fun _ : Bytes => Bytes

/-- The last part of a path, `parts[len(parts)-1]` of `strings.Split(filePath, "/")`. -/
def fileName (filePath : Bytes) : Bytes := (filePath.reverse.takeWhile (· ≠ 47)).reverse

/-- `fileName == mainFileName || strings.HasSuffix(filePath, mainFileName)` -/
def isSimilar (target filePath : Bytes) : Bool :=
  fileName filePath == target || target.isSuffixOf filePath

/-- The file that `CompileBytecodeFromMetadata` compiles for the target file of the metadata.  The
map is walked twice, in any order: `search` is for the file that is similar, `first` for the first
one that is available. -/
def mainFile (search first : Walk Bytes) (sources : SourceCodeMap) (target : Bytes) : Bytes :=
  if (sources.lookup target).isSome then target
  else
    let mainFileName := ((search.order sources.keys).find? (isSimilar target)).getD target
    -- named `stillNotExists` in the source
    if (sources.lookup mainFileName).isSome then
      (first.order sources.keys).head?.getD mainFileName
    else mainFileName

/-! ### Similar files -/

theorem fileName_suffix (filePath : Bytes) : fileName filePath <:+ filePath := by
  have hprefix := List.takeWhile_prefix (fun c : UInt8 => decide (c ≠ 47)) (l := filePath.reverse)
  rwa [← List.reverse_suffix, List.reverse_reverse] at hprefix

theorem isSimilar_iff {target filePath : Bytes} :
    isSimilar target filePath = true ↔ target <:+ filePath := by
  rw [isSimilar, Bool.or_eq_true, beq_iff_eq, List.isSuffixOf_iff_suffix]
  constructor
  · rintro (rfl | h)
    · exact fileName_suffix filePath
    · exact h
  · exact .inr

/-! ### What is compiled -/

variable {search first : Walk Bytes} {sources : SourceCodeMap} {target f : Bytes}

theorem mem_order (walk : Walk Bytes) : f ∈ walk.order sources.keys ↔ f ∈ sources := by
  rw [(walk.perm sources.keys).mem_iff, AList.mem_keys]

theorem mainFile_of_mem (h : target ∈ sources) : mainFile search first sources target = target := by
  rw [mainFile, if_pos (AList.lookup_isSome.mpr h)]

theorem mainFile_of_none (htarget : target ∉ sources) (h : ∀ f ∈ sources, ¬ target <:+ f) :
    mainFile search first sources target = target := by
  have hlookup : ¬ (sources.lookup target).isSome := fun hsome =>
    htarget (AList.lookup_isSome.mp hsome)
  have hfind : (search.order sources.keys).find? (isSimilar target) = none := by
    rw [List.find?_eq_none]
    intro f hf hsimilar
    exact h f ((mem_order search).mp hf) (isSimilar_iff.mp hsimilar)
  rw [mainFile, if_neg hlookup, hfind, Option.getD_none, if_neg hlookup]

/-- **A similar file that was found is replaced by the first one of the second walk.** -/
theorem mainFile_of_found (search first : Walk Bytes) (htarget : target ∉ sources)
    (hf : f ∈ sources) (h : target <:+ f) :
    (first.order sources.keys).head? = some (mainFile search first sources target) := by
  have hlookup : ¬ (sources.lookup target).isSome := fun hsome =>
    htarget (AList.lookup_isSome.mp hsome)
  have hsome : ((search.order sources.keys).find? (isSimilar target)).isSome := by
    rw [List.find?_isSome]
    exact ⟨f, (mem_order search).mpr hf, isSimilar_iff.mpr h⟩
  obtain ⟨found, hfound⟩ := Option.isSome_iff_exists.mp hsome
  have hmem : found ∈ sources := (mem_order search).mp (List.mem_of_find?_eq_some hfound)
  cases hhead : (first.order sources.keys).head? with
  | none =>
    rw [List.head?_eq_none_iff] at hhead
    have hnone := (mem_order first).mpr hf
    rw [hhead] at hnone
    cases hnone
  | some =>
    rw [mainFile, if_neg hlookup, hfound, Option.getD_some,
      if_pos (AList.lookup_isSome.mpr hmem), hhead, Option.getD_some]

def startWith (f : Bytes) : Walk Bytes where
  order l := if l.contains f then f :: l.erase f else l
  perm l := by
    split
    · next hf => exact (List.perm_cons_erase (List.contains_iff_mem.mp hf)).symm
    · exact .refl _

theorem head_startWith (hf : f ∈ sources) :
    ((startWith f).order sources.keys).head? = some f := by
  have hmem : sources.keys.contains f = true := List.contains_iff_mem.mpr (AList.mem_keys.mp hf)
  show (if sources.keys.contains f then f :: sources.keys.erase f else sources.keys).head? = some f
  rw [if_pos hmem]
  rfl

/-- What is to be compiled: the target, or else a file whose path ends in it if there is
one. -/
structure Chosen (sources : SourceCodeMap) (target main : Bytes) : Prop where
  named : target ∈ sources → main = target
  similar : target ∉ sources → (∃ f ∈ sources, target <:+ f) → main ∈ sources ∧ target <:+ main

/-- **The file that is compiled is as it should be in every order, and the same in all orders
if just one is similar, exactly if the target is there, no file is similar, or all are.** -/
theorem mainFile_iff (sources : SourceCodeMap) (target : Bytes) :
    ((∀ search first, Chosen sources target (mainFile search first sources target)) ∧
      ((∃! f, f ∈ sources ∧ target <:+ f) → ∀ search first search' first',
        mainFile search first sources target = mainFile search' first' sources target)) ↔
    (target ∈ sources ∨ (∀ f ∈ sources, ¬ target <:+ f) ∨ ∀ f ∈ sources, target <:+ f) := by
  constructor
  · rintro ⟨hchosen, -⟩
    by_contra hnone
    simp only [not_or, not_forall, not_not] at hnone
    obtain ⟨htarget, ⟨f, hf, hsimilar⟩, ⟨f', hf', hother⟩⟩ := hnone
    -- the second walk may start with the file that is not similar
    have hmain := mainFile_of_found .id (startWith f') htarget hf hsimilar
    rw [head_startWith hf', Option.some.injEq] at hmain
    have hends := ((hchosen .id (startWith f')).similar htarget ⟨f, hf, hsimilar⟩).2
    rw [← hmain] at hends
    exact hother hends
  · intro h
    by_cases htarget : target ∈ sources
    · refine ⟨fun search first => ⟨fun _ => mainFile_of_mem htarget, absurd htarget⟩, ?_⟩
      intro _ search first search' first'
      rw [mainFile_of_mem htarget, mainFile_of_mem htarget]
    · obtain hno | hall := h.resolve_left htarget
      · refine ⟨fun search first => ⟨fun hmem => absurd hmem htarget, ?_⟩, ?_⟩
        · rintro - ⟨f, hf, hsimilar⟩
          exact absurd hsimilar (hno f hf)
        · rintro - search first search' first'
          rw [mainFile_of_none htarget hno, mainFile_of_none htarget hno]
      · have hmem : ∀ search first f, f ∈ sources →
            mainFile search first sources target ∈ sources := by
          intro search first f hf
          have hhead := mainFile_of_found search first htarget hf (hall f hf)
          exact (mem_order first).mp (List.mem_of_mem_head? hhead)
        refine ⟨fun search first => ⟨fun hmem => absurd hmem htarget, ?_⟩, ?_⟩
        · rintro - ⟨f, hf, -⟩
          exact ⟨hmem search first f hf, hall _ (hmem search first f hf)⟩
        · rintro ⟨f, ⟨hf, -⟩, hunique⟩ search first search' first'
          have hone : ∀ search first, mainFile search first sources target = f := by
            intro search first
            have hin := hmem search first f hf
            exact hunique _ ⟨hin, hall _ hin⟩
          rw [hone, hone]

/-- Two files, of which one is similar to `T.sol`. -/
def twoFiles : SourceCodeMap :=
  (AList.singleton (asciiBytes "X.sol") []).insert (asciiBytes "a/T.sol") []

/-- For the target `T.sol` there is a similar file, `a/T.sol`, but `X.sol` is compiled if the
second walk starts with it. -/
theorem mainFile_not_similar :
    asciiBytes "T.sol" ∉ twoFiles ∧ asciiBytes "a/T.sol" ∈ twoFiles ∧
    asciiBytes "T.sol" <:+ asciiBytes "a/T.sol" ∧
    mainFile .id (startWith (asciiBytes "X.sol")) twoFiles (asciiBytes "T.sol") =
      asciiBytes "X.sol" ∧
    ¬ asciiBytes "T.sol" <:+ asciiBytes "X.sol" := by
  decide

end MetaNode.Complier
