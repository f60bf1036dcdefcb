import Johnny.Setup.Slurp

namespace Johnny
namespace Setup

open Library

/-!
# Responses for what `slurp` returned

`slurp` reports every failure as the size `-1`, and leaves its buffer unwritten,
null or freed.  `johnny_slurps_file` goes on in all cases.  What it computes and
copies is right exactly when `slurp` succeeded and the response fits in memory.
-/

/-- What `slurp` may return for a file.  Memory may also run out for a request
that is not too large. -/
inductive Slurps (file : FileAccess) (heap : Heap) : SlurpResult -> Prop
  | returns {slurped : SlurpResult} (slurps : slurp file heap = some slurped) :
      Slurps file heap slurped
  | outOfMemory (opens : file.opens = true) (sized : file.offEnd ≠ none) :
      Slurps file heap ⟨failedSize, .null, heap⟩

/-- Whatever happens, `slurp` returns. -/
theorem slurp_returns (file : FileAccess) (heap : Heap) :
    Exists fun slurped => slurp file heap = some slurped := by
  unfold slurp
  split_ifs with closed
  · exact ⟨_, rfl⟩
  · cases file.offEnd with
    | none => exact ⟨_, rfl⟩
    | some fsz =>
        dsimp only
        unfold Heap.malloc
        by_cases limit : fsz < Heap.mallocLimit
        · have live : (heap.allocate (List.replicate fsz none)).2.blocks heap.next =
              some ([] ++ List.replicate fsz none) :=
            heap.allocate_blocks_self _
          rcases @Heap.write_behind _ _ _ _ ((file.contents.take fsz).map some) live
            (by rw [List.length_map, List.length_take, List.length_replicate]; omega)
              with ⟨filled, written, blocks⟩
          have start : (heap.allocate (List.replicate fsz none)).2.write ⟨heap.next, 0⟩
              ((file.contents.take fsz).map some) = some filled := written
          rw [if_pos limit]
          dsimp only
          rw [Heap.allocate_fst, start, Option.bind_some]
          split_ifs
          · rcases @Heap.free_eq filled ⟨heap.next, 0⟩ _ rfl
              (by rw [blocks, Function.update_self]) with ⟨freed, frees, -⟩
            rw [frees]
            exact ⟨_, rfl⟩
          · exact ⟨_, rfl⟩
        · rw [if_neg limit]
          exact ⟨_, rfl⟩

/-- What should hold of `johnny_slurps_file` once `slurp` has returned: the
response length is a sum without wrap-around, `slurp` placed as many bytes as
are copied in a buffer that can be freed, both copies stay inside the response,
and the header tells the length of the body. -/
structure SlurpsCleanly (slurped : SlurpResult) (fileName : Bytes) : Prop where
  noWrap : (responseHeader fileName slurped.size).length + slurped.size < 2 ^ 64
  placed : Exists fun buf => Exists fun contents => slurped.buf = .allocated buf ∧
    slurped.heap.readBytes buf slurped.size = some contents ∧ (slurped.heap.free buf).isSome = true
  made : Exists fun made => Exists fun body => makesResponse slurped fileName = some made ∧
    made.heap.readBytes made.response made.responseLength =
      some (responseHeader fileName body.length ++ body)

/-- A file whose contents can be handed over and put behind a header. -/
def Fits (slurped : SlurpResult) (fileName : Bytes) : Prop :=
  (responseHeader fileName slurped.size).length + slurped.size < Heap.mallocLimit

instance (slurped : SlurpResult) (fileName : Bytes) : Decidable (Fits slurped fileName) :=
  inferInstanceAs (Decidable (_ < _))

theorem Slurps.handsOver {file : FileAccess} {heap : Heap} {slurped : SlurpResult}
    (outcome : Slurps file heap slurped) (succeeds : slurped.size ≠ failedSize) :
    Exists fun contents => Readable file contents ∧ HandsOver slurped contents := by
  cases outcome with
  | outOfMemory opens sized => exact absurd rfl succeeds
  | returns slurps =>
      by_contra none
      apply succeeds
      refine slurp_of_unreadable ?_ slurps
      intro contents readable
      rcases slurp_handsOver readable heap with ⟨other, otherSlurps, hands, -⟩
      rw [slurps] at otherSlurps
      cases otherSlurps
      exact none ⟨contents, readable, hands⟩

theorem MakesWhole.readBytes {slurped : SlurpResult} {header contents : Bytes} {made : MadeResponse}
    (whole : MakesWhole slurped header contents made) :
    made.heap.readBytes made.response made.responseLength = some (header ++ contents) := by
  have bytes := Heap.readBytes_block whole.block
  rwa [List.length_append, ← whole.response, ← whole.responseLength] at bytes

theorem HandsOver.slurpsCleanly {slurped : SlurpResult} {contents : Bytes}
    (hands : HandsOver slurped contents)
    {fileName : Bytes} (fits : Fits slurped fileName) : SlurpsCleanly slurped fileName := by
  unfold Fits at fits
  have limit : Heap.mallocLimit = 2 ^ 63 := rfl
  rcases hands.buf with ⟨block, buf, live⟩
  refine ⟨by omega, ⟨⟨block, 0⟩, contents, buf, ?_, ?_⟩, ?_⟩
  · rw [hands.size]
    exact Heap.readBytes_block live
  · rcases @Heap.free_eq slurped.heap ⟨block, 0⟩ _ rfl live with ⟨after, freed, -⟩
    rw [freed]
    rfl
  · rw [hands.size] at fits
    rcases makesResponse_of_handsOver hands fits with ⟨made, makes, whole⟩
    exact ⟨made, contents, makes, whole.readBytes⟩

/-- For every file and every outcome of `slurp`, the response is made cleanly
exactly when `slurp` did not return `-1` and the response fits in memory. -/
theorem slurpsCleanly_iff (file : FileAccess) (fileName : Bytes) (heap : Heap)
    (slurped : SlurpResult) (outcome : Slurps file heap slurped) :
    SlurpsCleanly slurped fileName <-> slurped.size ≠ failedSize ∧ Fits slurped fileName := by
  constructor
  · intro clean
    have noWrap := clean.noWrap
    rcases clean.made with ⟨made, -, makes, -⟩
    refine ⟨?_, ?_⟩
    · intro failed
      rw [makesResponse_of_failed failed] at makes
      cases makes
    · have size := makesResponse_size makes
      rwa [Nat.mod_eq_of_lt noWrap] at size
  · rintro ⟨succeeds, fits⟩
    rcases outcome.handsOver succeeds with ⟨contents, -, hands⟩
    exact hands.slurpsCleanly fits

/-- A file of three bytes that can be read. -/
def smallFile : FileAccess := ⟨true, some 3, ascii "abc", true⟩

/-- A file that can be opened and sized, but not read to its end. -/
def truncatedFile : FileAccess := ⟨true, some 3, ascii "ab", true⟩

theorem slurpsCleanly_smallFile : Exists fun slurped =>
    slurp smallFile Heap.empty = some slurped ∧ SlurpsCleanly slurped (ascii "a.txt") := by
  rcases slurp_handsOver (show Readable smallFile (ascii "abc") from
    ⟨rfl, rfl, ⟨[], rfl⟩, rfl, by decide⟩) Heap.empty with ⟨slurped, slurps, hands, -⟩
  refine ⟨slurped, slurps, ?_⟩
  have size : slurped.size = 3 := hands.size
  refine (slurpsCleanly_iff smallFile (ascii "a.txt") Heap.empty slurped (.returns slurps)).mpr ⟨?_,
    ?_⟩
  · rw [size]
    decide
  · unfold Fits
    rw [size]
    decide

theorem not_slurpsCleanly_truncatedFile :
    ¬ forall file fileName heap slurped, Slurps file heap slurped ->
      SlurpsCleanly slurped fileName := by
  intro clean
  rcases slurp_returns truncatedFile Heap.empty with ⟨slurped, slurps⟩
  have failed : slurped.size = failedSize := by
    refine slurp_of_unreadable ?_ slurps
    intro contents readable
    have length : contents.length = 3 := (Option.some.inj readable.offEnd).symm
    have short := readable.reads.length_le
    rw [length] at short
    exact absurd short (by decide)
  rcases (clean truncatedFile (ascii "a.txt") Heap.empty slurped (.returns slurps)).made
    with ⟨made, -, makes, -⟩
  rw [makesResponse_of_failed failed] at makes
  cases makes

end Setup
end Johnny
