import MagiskNative.Compress.Encoder
import MagiskNative.Lib.Loop

/-!
# The buffer of the chunker

`Chunker` of `base/misc.rs` as it stores its bytes: an array that is not initialised when it is allocated,
with a position up to which it has been filled. It refines the chunker that only knows the waiting bytes.
-/

namespace MagiskNative.Compress

/-- A byte of the array is `none` until it is written. -/
abbrev Cells := List (Option UInt8)

structure RawChunker where
  chunk : Cells
  chunkSize : Nat
  pos : Nat

namespace RawChunker

/-- `chunk[off..off + src.len()].copy_from_slice(src)`, or `none` for the panic if that is out of range. -/
def copyFromSlice (chunk : Cells) (off : Nat) (src : List UInt8) : Option Cells :=
  if off + src.length ≤ chunk.length then some (Bytes.patch chunk off (src.map some)) else none

def firstCells (chunk : Cells) (n : Nat) : Option Cells := if n ≤ chunk.length then some (chunk.take n) else none

def new (chunkSize : Nat) : RawChunker := ⟨List.replicate chunkSize none, chunkSize, 0⟩

def setChunkSize (c : RawChunker) (chunkSize : Nat) : RawChunker :=
  ⟨if c.chunk.length < chunkSize then List.replicate chunkSize none else c.chunk, chunkSize, 0⟩

def addData (c : RawChunker) (buf : List UInt8) : Option (List UInt8 × Option Cells × RawChunker) :=
  if 0 < c.pos then do
    -- the subtraction must not go below zero
    guard (c.pos ≤ c.chunkSize)
    let len := min (c.chunkSize - c.pos) buf.length
    let chunk ← copyFromSlice c.chunk c.pos (buf.take len)
    let pos := c.pos + len
    if pos = c.chunkSize then
      let full ← firstCells chunk c.chunkSize
      return (buf.drop len, some full, ⟨chunk, c.chunkSize, 0⟩)
    else return (buf.drop len, none, ⟨chunk, c.chunkSize, pos⟩)
  else if c.chunkSize ≤ buf.length then
    return (buf.drop c.chunkSize, some ((buf.take c.chunkSize).map some), c)
  else do
    let chunk ← copyFromSlice c.chunk c.pos buf
    return ([], none, ⟨chunk, c.chunkSize, c.pos + buf.length⟩)

def getAvailable (c : RawChunker) : Option (Cells × RawChunker) := do
  let chunk ← firstCells c.chunk c.pos
  return (chunk, ⟨c.chunk, c.chunkSize, 0⟩)

def Holds (c : RawChunker) (a : Chunker) : Prop :=
  c.chunkSize = a.chunkSize ∧ c.pos = a.pending.length ∧ c.chunkSize ≤ c.chunk.length ∧
    ∃ unused, c.chunk = a.pending.map some ++ unused

theorem holds_new {n : Nat} (hn : 0 < n) : (new n).Holds (Chunker.new n hn) :=
  ⟨rfl, rfl, by simp [new], _, rfl⟩

theorem holds_setChunkSize (c : RawChunker) {n : Nat} (hn : 0 < n) :
    (c.setChunkSize n).Holds (Chunker.new n hn) := by
  refine ⟨rfl, rfl, ?_, _, rfl⟩
  change n ≤ (if c.chunk.length < n then List.replicate n none else c.chunk).length
  split
  · rw [List.length_replicate]
  · omega

theorem copyFromSlice_append (before unused : Cells) {src : List UInt8} (hsrc : src.length ≤ unused.length) :
    copyFromSlice (before ++ unused) before.length src =
      some (before ++ (src.map some ++ unused.drop src.length)) := by
  have hlength : (src.map some).length = (unused.take src.length).length := by
    rw [List.length_map, List.length_take_of_le hsrc]
  have hpatch := Bytes.patch_append before (unused.drop src.length) hlength
  rw [List.take_append_drop] at hpatch
  rw [copyFromSlice, if_pos (by simpa using hsrc), hpatch]

variable {c : RawChunker} {a : Chunker}

theorem Holds.copy (hc : c.Holds a) (src : List UInt8) (hsrc : a.pending.length + src.length ≤ a.chunkSize) :
    ∃ unused, copyFromSlice c.chunk a.pending.length src = some ((a.pending ++ src).map some ++ unused) ∧
      a.chunkSize ≤ ((a.pending ++ src).map some ++ unused).length := by
  obtain ⟨hsize, hpos, hroom, unused, hchunk⟩ := hc
  have hlength := congrArg List.length hchunk
  rw [List.length_append, List.length_map] at hlength
  refine ⟨unused.drop src.length, ?_, ?_⟩
  · have hmap : a.pending.length = (a.pending.map some).length := (List.length_map some).symm
    rw [hchunk, hmap, copyFromSlice_append _ _ (by omega), List.map_append, List.append_assoc]
  · simp only [List.length_append, List.length_map, List.length_drop]
    omega

theorem firstCells_append {bytes : List UInt8} {n : Nat} (hlength : bytes.length = n) (unused : Cells) :
    firstCells (bytes.map some ++ unused) n = some (bytes.map some) := by
  have hmap : (bytes.map some).length = n := (List.length_map some).trans hlength
  rw [firstCells, if_pos (by rw [List.length_append, hmap]; omega), List.take_left' hmap]

theorem Holds.addData (hc : c.Holds a) (buf : List UInt8) :
    ∃ c', c.addData buf = some ((a.addData buf).1, (a.addData buf).2.1.map (List.map some), c') ∧
      c'.Holds (a.addData buf).2.2 := by
  have hpending := a.pending_lt
  have hsize := hc.1
  have hpos := hc.2.1
  unfold RawChunker.addData Chunker.addData
  by_cases hwaiting : 0 < a.pending.length
  · rw [if_pos (hpos.symm ▸ hwaiting), if_pos hwaiting, hsize, hpos]
    have hguard : (guard (a.pending.length ≤ a.chunkSize) : Option Unit) = some () := if_pos hpending.le
    have hfill : (a.pending ++ buf.take (min (a.chunkSize - a.pending.length) buf.length)).length =
        a.pending.length + min (a.chunkSize - a.pending.length) buf.length := by
      rw [List.length_append, List.length_take]
      omega
    obtain ⟨unused, hcopy, hroom⟩ := hc.copy (buf.take (min (a.chunkSize - a.pending.length) buf.length)) (by
      rw [List.length_take]
      omega)
    simp only [hguard, hcopy, Option.bind_eq_bind, Option.bind_some]
    by_cases hfull : a.pending.length + min (a.chunkSize - a.pending.length) buf.length = a.chunkSize
    · have hcells := firstCells_append (hfill.trans hfull) unused
      rw [if_pos hfull, dif_pos (hfill.trans hfull), hcells]
      exact ⟨_, rfl, rfl, rfl, hroom, _, rfl⟩
    · rw [if_neg hfull, dif_neg (hfill ▸ hfull)]
      exact ⟨_, rfl, rfl, hfill.symm, hroom, unused, rfl⟩
  · rw [if_neg (hpos.symm ▸ hwaiting), if_neg hwaiting]
    have hnil : a.pending = [] := List.eq_nil_of_length_eq_zero (by omega)
    by_cases hlarge : a.chunkSize ≤ buf.length
    · rw [if_pos (hsize.symm ▸ hlarge), dif_pos hlarge, hsize]
      exact ⟨c, rfl, hc⟩
    · rw [if_neg (hsize.symm ▸ hlarge), dif_neg hlarge]
      have hfits : a.pending.length + buf.length ≤ a.chunkSize := by omega
      obtain ⟨unused, hcopy, hroom⟩ := hc.copy buf hfits
      rw [hpos, hcopy]
      rw [hnil, List.nil_append] at hroom
      refine ⟨_, rfl, hsize, ?_, ?_, unused, ?_⟩
      · rw [hnil, List.length_nil, Nat.zero_add]
      · rwa [hnil, List.nil_append, hsize]
      · rw [hnil, List.nil_append]

theorem Holds.getAvailable (hc : c.Holds a) :
    ∃ c', c.getAvailable = some (a.pending.map some, c') := by
  obtain ⟨-, hpos, -, unused, hchunk⟩ := hc
  rw [RawChunker.getAvailable, hchunk, firstCells_append hpos.symm]
  exact ⟨_, rfl⟩

end RawChunker

structure Feed where
  chunker : RawChunker
  bufs : List (List UInt8)
  emitted : List Cells

/-- One pass of `while !buf.is_empty()` over one buffer after the other; `none` is a panic. -/
def feed (s : Feed) : Loop.Round Feed (Option (RawChunker × List Cells)) :=
  match s.bufs with
  | [] => .leave (some (s.chunker, s.emitted))
  | [] :: bufs => .next ⟨s.chunker, bufs, s.emitted⟩
  | buf :: bufs =>
      match s.chunker.addData buf with
      | none => .leave none
      | some (rest, chunk, c) => .next ⟨c, rest :: bufs, s.emitted ++ chunk.toList⟩

namespace Feed

/-- What has been emitted are chunks of `n` written bytes, and with the bytes that wait and those to come they
are the input. -/
def Good (n : Nat) (input : List UInt8) (s : Feed) : Prop :=
  ∃ (a : Chunker) (chunks : List (List UInt8)), s.chunker.Holds a ∧ a.chunkSize = n ∧
    s.emitted = chunks.map (List.map some) ∧ (∀ chunk ∈ chunks, chunk.length = n) ∧
    chunks.flatten ++ (a.pending ++ s.bufs.flatten) = input

variable {n : Nat} {input : List UInt8} {s s' : Feed}

theorem Good.step (hs : s.Good n input) (hround : feed s = .next s') :
    s'.Good n input ∧ s'.bufs.flatten.length + s'.bufs.length < s.bufs.flatten.length + s.bufs.length := by
  obtain ⟨c, bufs, emitted⟩ := s
  obtain ⟨a, chunks, hholds, hsize, hemitted, hchunks, hinput⟩ := hs
  dsimp only at hholds hemitted hinput
  match bufs with
  | [] => cases hround
  | [] :: bufs =>
      cases hround
      exact ⟨⟨a, chunks, hholds, hsize, hemitted, hchunks, hinput⟩, by simp⟩
  | (b :: buf) :: bufs =>
      obtain ⟨c', hadd, hholds'⟩ := hholds.addData (b :: buf)
      obtain ⟨hkept, hfull, hsplit⟩ := a.addData_spec (b :: buf)
      have hprogress := a.addData_progress (List.cons_ne_nil b buf)
      simp only [feed, hadd] at hround
      cases hround
      refine ⟨⟨_, chunks ++ (a.addData (b :: buf)).2.1.toList, hholds', hkept.trans hsize, ?_, ?_, ?_⟩, ?_⟩
      · dsimp only
        rw [hemitted, List.map_append]
        cases (a.addData (b :: buf)).2.1 <;> rfl
      · intro chunk hchunk
        rcases List.mem_append.1 hchunk with hold | hnew
        · exact hchunks chunk hold
        · exact (hfull chunk (Option.mem_toList.1 hnew)).trans hsize
      · rw [← hinput, List.flatten_cons, List.flatten_cons, ← List.append_assoc a.pending, hsplit,
          List.flatten_append, List.append_assoc]
        cases (a.addData (b :: buf)).2.1 <;> simp
      · simp only [List.flatten_cons, List.length_append, List.length_cons] at hprogress ⊢
        omega

theorem Good.ends (hs : s.Good n input) : ∃ rounds c emitted, Loop.run feed rounds s = some (some (c, emitted)) ∧
    Good n input ⟨c, [], emitted⟩ := by
  have hgood : ∀ t, Loop.Visits feed s t → t.Good n input := fun t hvisits =>
    hvisits.invariant (fun _ _ ht hnext => (ht.step hnext).1) hs
  obtain ⟨rounds, result, hrun⟩ : Loop.Ends feed s :=
    Loop.ends_of_measure (μ := fun s => s.bufs.flatten.length + s.bufs.length)
      fun t u hvisits hnext => ((hgood t hvisits).step hnext).2
  obtain ⟨⟨c, bufs, emitted⟩, hvisits, hleave⟩ := Loop.exists_leave_of_run hrun
  have ht := hgood _ hvisits
  match bufs with
  | [] =>
      cases hleave
      exact ⟨rounds, c, emitted, hrun, ht⟩
  | [] :: bufs => cases hleave
  | (b :: buf) :: bufs =>
      -- no call panics
      obtain ⟨a, -, hholds, -⟩ := ht
      obtain ⟨c', hadd, -⟩ := hholds.addData (b :: buf)
      simp only [feed, hadd] at hleave
      cases hleave

end Feed

/-- **Chunks.** Between the calls fewer than `n` bytes wait, and a call consumes some of a buffer. When all
buffers are consumed, the chunks of `n` bytes and what is still available are the input, all of it written. -/
theorem feed_spec {n : Nat} (hn : 0 < n) {c : RawChunker}
    (hc : c = .new n ∨ ∃ old : RawChunker, c = old.setChunkSize n) (bufs : List (List UInt8)) :
    (∀ s, Loop.Visits feed ⟨c, bufs, []⟩ s → s.chunker.pos < n ∧
      ∀ buf, buf ≠ [] → ∃ rest chunk c', s.chunker.addData buf = some (rest, chunk, c') ∧
        rest.length < buf.length) ∧
    ∃ rounds c' emitted available c'',
      Loop.run feed rounds ⟨c, bufs, []⟩ = some (some (c', emitted)) ∧
      c'.getAvailable = some (available, c'') ∧ (∀ chunk ∈ emitted, chunk.length = n) ∧
      emitted.flatten ++ available = bufs.flatten.map some := by
  have hstart : Feed.Good n bufs.flatten ⟨c, bufs, []⟩ := by
    refine ⟨Chunker.new n hn, [], ?_, rfl, rfl, nofun, rfl⟩
    rcases hc with rfl | ⟨old, rfl⟩
    · exact RawChunker.holds_new hn
    · exact old.holds_setChunkSize hn
  refine ⟨fun s hvisits => ?_, ?_⟩
  · obtain ⟨a, -, hholds, hsize, -⟩ := hvisits.invariant (fun _ _ ht hnext => (ht.step hnext).1) hstart
    refine ⟨hholds.2.1.trans_lt (hsize ▸ a.pending_lt), fun buf hbuf => ?_⟩
    obtain ⟨c', hadd, -⟩ := hholds.addData buf
    exact ⟨_, _, c', hadd, a.addData_progress hbuf⟩
  · obtain ⟨rounds, c', emitted, hrun, a, chunks, hholds, -, hemitted, hchunks, hinput⟩ := hstart.ends
    obtain ⟨c'', havailable⟩ := hholds.getAvailable
    dsimp only at hemitted hinput
    refine ⟨rounds, c', emitted, _, c'', hrun, havailable, ?_, ?_⟩
    · rw [hemitted]
      intro chunk hchunk
      obtain ⟨bytes, hbytes, rfl⟩ := List.mem_map.1 hchunk
      rw [List.length_map, hchunks bytes hbytes]
    · rw [hemitted, ← hinput, List.map_append, List.map_flatten, List.flatten_nil, List.append_nil]

theorem feed_two :
    ∃ rounds c' emitted available c'',
      Loop.run feed rounds ⟨.new 2, [[1], [2, 3, 4, 5]], []⟩ = some (some (c', emitted)) ∧
      c'.getAvailable = some (available, c'') ∧ (∀ chunk ∈ emitted, chunk.length = 2) ∧
      emitted.flatten ++ available = [1, 2, 3, 4, 5].map some :=
  (feed_spec (by decide) (.inl rfl) [[1], [2, 3, 4, 5]]).2

end MagiskNative.Compress
