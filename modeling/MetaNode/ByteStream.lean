/-
Reading from a connection that delivers its bytes in segments.

A `Reader` has bytes in its buffer and segments that the connection will deliver, with
the end of the stream behind the last one.  One `read` gives what is at hand, which
may be less than was asked for; `collect` reads until it has as much as it wants or
the stream ends.  What it gets depends on the bytes of the stream alone, not on how
they are cut into segments (**`collect_eq`**).
-/
import MetaNode.Bytes

namespace ByteStream

open MetaNode (Bytes)

structure Reader where
  buffered : Bytes
  segments : List Bytes

/-- The size of the buffer of `bufio.NewReader`. -/
def bufferSize : ℕ := 4096

namespace Reader

/-- A reader of a connection from which nothing was read yet. -/
def new (segments : List Bytes) : Reader := ⟨[], segments⟩

variable (r : Reader)

def content : Bytes := r.buffered ++ r.segments.flatten

/-- `Read` into `n` bytes: what is buffered, or a part of the next segment, which goes
through the buffer unless as much as that is asked for.  At the end of the stream it is
`none`. -/
def read (n : ℕ) : Option (Bytes × Reader) :=
  if r.buffered ≠ [] then some (r.buffered.take n, { r with buffered := r.buffered.drop n })
  else
    match r.segments with
    | [] => none
    | segment :: segments =>
      let asked := if bufferSize ≤ n then n else bufferSize
      some ((segment.take asked).take n, ⟨(segment.take asked).drop n,
        if segment.length ≤ asked then segments else segment.drop asked :: segments⟩)

def size : ℕ := r.content.length + r.segments.length

theorem read_eq_none {r : Reader} {n : ℕ} (h : r.read n = none) : r.content = [] := by
  rw [read] at h
  split at h
  · cases h
  · rename_i hbuf
    split at h
    · rename_i hseg
      rw [content, hseg, not_not.mp hbuf]
      rfl
    · cases h

theorem read_eq_some {r r' : Reader} {n : ℕ} {b : Bytes} (hn : 0 < n)
    (h : r.read n = some (b, r')) :
    b.length ≤ n ∧ r.content = b ++ r'.content ∧ r'.size < r.size := by
  rw [read] at h
  split at h
  · rename_i hbuf
    rw [Option.some.injEq, Prod.mk.injEq] at h
    obtain ⟨rfl, rfl⟩ := h
    have hpos := List.length_pos_iff.mpr hbuf
    refine ⟨List.length_take_le _ _, ?_, ?_⟩
    · simp only [content, ← List.append_assoc, List.take_append_drop]
    · simp only [size, content, List.length_append, List.length_drop]
      omega
  · rename_i hbuf
    have hnil : r.buffered = [] := not_not.mp hbuf
    split at h
    · cases h
    · rename_i segment segments hseg
      rw [Option.some.injEq, Prod.mk.injEq] at h
      obtain ⟨rfl, rfl⟩ := h
      have hasked : n ≤ (if bufferSize ≤ n then n else bufferSize) := by split <;> omega
      generalize (if bufferSize ≤ n then n else bufferSize) = asked at hasked
      have hcontent : r.content = segment ++ segments.flatten := by
        rw [content, hnil, hseg]
        rfl
      refine ⟨List.length_take_le _ _, ?_, ?_⟩
      · rw [hcontent, content]
        split
        · rename_i hle
          rw [← List.append_assoc, List.take_append_drop, List.take_of_length_le hle]
        · rw [← List.append_assoc, List.take_append_drop, List.flatten_cons, ← List.append_assoc,
            List.take_append_drop]
      · rw [size, size, hcontent, hseg, content]
        split
        · rename_i hle
          simp only [List.length_append, List.length_drop, List.length_take, List.length_cons]
          omega
        · -- the rest of the segment stays, so a byte has to be used up
          simp only [List.length_append, List.length_drop, List.length_take, List.length_cons,
            List.flatten_cons]
          omega

/-- Reads until there are `n` bytes or the stream ends. -/
def collect (r : Reader) (n : ℕ) : Bytes × Reader :=
  if _hn : n = 0 then ([], r)
  else
    match _h : r.read n with
    | none => ([], r)
    | some (b, r') =>
      let rest := r'.collect (n - b.length)
      (b ++ rest.1, rest.2)
termination_by r.size
decreasing_by exact (read_eq_some (Nat.pos_of_ne_zero _hn) _h).2.2

/-- **What is collected depends on the bytes of the stream alone.** -/
theorem collect_eq (n : ℕ) :
    (r.collect n).1 = r.content.take n ∧ (r.collect n).2.content = r.content.drop n := by
  induction r, n using collect.induct with
  | case1 => simp [collect]
  | case2 r n hn hread =>
    have hnil := read_eq_none hread
    rw [collect, dif_neg hn]
    split
    · simp [hnil]
    · rename_i b r' hsome
      rw [hread] at hsome
      cases hsome
  | case3 r n hn b r' hread ih =>
    obtain ⟨hle, hcontent, -⟩ := read_eq_some (Nat.pos_of_ne_zero hn) hread
    rw [collect, dif_neg hn]
    split
    · rename_i hnone
      rw [hread] at hnone
      cases hnone
    · rename_i b' r'' hsome
      rw [hread] at hsome
      cases hsome
      rw [hcontent, List.take_append, List.drop_append, List.take_of_length_le hle,
        List.drop_of_length_le hle, List.nil_append]
      exact ⟨congrArg (b ++ ·) ih.1, ih.2⟩

theorem length_collect (n : ℕ) : (r.collect n).1.length = min n r.content.length := by
  rw [(r.collect_eq n).1, List.length_take]

end Reader

end ByteStream
