import MagiskNative.Lib.Reader
import MagiskNative.Compress.Encoder

/-!
# The LZ4 block decoder

`LZ4BlockDecoder` as a state machine over its underlying reader. `Archive` describes the bytes such a reader
may still hold, and `Serves` the decoder that sits on top of them.
-/

namespace MagiskNative.Compress

open Reader Bytes

structure Decoder where
  reader : Reader.State
  inBuf : List UInt8
  -- `out_buf[out_pos..out_len]`
  pending : List UInt8

namespace Decoder

def decodeBlock (codec : Codec) (d : Decoder) (size : Nat) : Except Reader.Error Bool × Decoder :=
  match codec.decompress (d.inBuf.take size) with
  | none => (.error .other, d)
  | some out => (.ok true, { d with pending := out })

def readBlock (codec : Codec) (d : Decoder) (size : Nat) : Except Reader.Error Bool × Decoder :=
  if d.inBuf.length < size then (.ok false, d)
  else
    match Reader.read d.reader size with
    -- the error of the first read is dropped, and what the buffer holds is decompressed
    | (.error _, r) => decodeBlock codec { d with reader := r } size
    | (.ok [], r) => (.ok false, { d with reader := r })
    | (.ok got, r) =>
        let inBuf := got ++ d.inBuf.drop got.length
        if got.length ≠ size then
          match Reader.readExact r (size - got.length) with
          | (.error e, r) => (.error e, { d with reader := r, inBuf := inBuf })
          | (.ok rest, r) =>
              decodeBlock codec
                { d with reader := r, inBuf := got ++ rest ++ d.inBuf.drop size } size
        else decodeBlock codec { d with reader := r, inBuf := inBuf } size

def fill (codec : Codec) (d : Decoder) : Except Reader.Error Bool × Decoder :=
  match Reader.readExact d.reader 4 with
  | (.error .unexpectedEof, r) => (.ok false, { d with reader := r })
  | (.error e, r) => (.error e, { d with reader := r })
  | (.ok size, r) =>
      if ofLe size = lz4Magic then
        match Reader.readExact r 4 with
        | (.error e, r) => (.error e, { d with reader := r })
        | (.ok size, r) => readBlock codec { d with reader := r } (ofLe size)
      else readBlock codec { d with reader := r } (ofLe size)

def copyOut (d : Decoder) (len : Nat) : Except Reader.Error (List UInt8) × Decoder :=
  (.ok (d.pending.take len), { d with pending := d.pending.drop len })

def read (codec : Codec) (d : Decoder) (len : Nat) : Except Reader.Error (List UInt8) × Decoder :=
  if d.pending = [] then
    match fill codec d with
    | (.error e, d) => (.error e, d)
    | (.ok false, d) => (.ok [], d)
    | (.ok true, d) => copyOut d len
  else copyOut d len

def reads (codec : Codec) (d : Decoder) : List Nat → Except Reader.Error (List (List UInt8))
  | [] => .ok []
  | len :: lens =>
      match read codec d len with
      | (.error e, _) => .error e
      | (.ok out, d) =>
          match reads codec d lens with
          | .error e => .error e
          | .ok outs => .ok (out :: outs)

end Decoder

inductive Archive (codec : Codec) (tail : List UInt8) : List UInt8 → List UInt8 → Prop where
  | done : Archive codec tail tail []
  | block {b chunk rest x : List UInt8} (hdecode : codec.decompress b = some chunk)
      (hchunk : chunk ≠ []) (hpos : 0 < b.length) (hle : b.length ≤ compressBound lz4BlockSize)
      (hrest : Archive codec tail rest x) :
      Archive codec tail (leBytes 4 b.length ++ (b ++ rest)) (chunk ++ x)
  | magic {b chunk rest x : List UInt8} (hdecode : codec.decompress b = some chunk)
      (hchunk : chunk ≠ []) (hpos : 0 < b.length) (hle : b.length ≤ compressBound lz4BlockSize)
      (hrest : Archive codec tail rest x) :
      Archive codec tail
        (leBytes 4 lz4Magic ++ (leBytes 4 b.length ++ (b ++ rest))) (chunk ++ x)

/-- A decoder that still has `x` to hand out, with `tail` behind it. -/
structure Serves (codec : Codec) (tail : List UInt8) (d : Decoder) (x : List UInt8) : Prop where
  inBuf : d.inBuf.length = compressBound lz4BlockSize
  events : Reader.OnlyShort d.reader.events
  archive : ∃ y, Archive codec tail d.reader.data y ∧ x = d.pending ++ y

namespace Decoder

section Step

variable {codec : Codec} {d : Decoder}

variable {n : Nat} {rest b chunk : List UInt8}

theorem readExact_word {r : Reader.State} (hevents : Reader.OnlyShort r.events)
    (hdata : r.data = leBytes 4 n ++ rest) :
    ∃ events, Reader.readExact r 4 = (.ok (leBytes 4 n), ⟨rest, events⟩) ∧
      Reader.OnlyShort events := by
  have hlen : 4 ≤ r.data.length := by
    rw [hdata, List.length_append, length_leBytes]
    omega
  obtain ⟨events, hread, hshort⟩ := readExact_onlyShort hevents hlen
  refine ⟨events, ?_, hshort⟩
  rw [hread, hdata, List.take_left' (length_leBytes 4 n),
    List.drop_left' (length_leBytes 4 n)]

theorem readBlock_of_read {size : Nat} {got : List UInt8} {r : Reader.State}
    (hle : size ≤ d.inBuf.length) (hgot : got ≠ [])
    (hread : Reader.read d.reader size = (.ok got, r)) :
    readBlock codec d size
      = if got.length ≠ size then
          match Reader.readExact r (size - got.length) with
          | (.error e, r) =>
              (.error e, { d with reader := r, inBuf := got ++ d.inBuf.drop got.length })
          | (.ok rest, r) =>
              decodeBlock codec
                { d with reader := r, inBuf := got ++ rest ++ d.inBuf.drop size } size
        else
          decodeBlock codec { d with reader := r, inBuf := got ++ d.inBuf.drop got.length } size := by
  obtain ⟨g, got, rfl⟩ := List.exists_cons_of_ne_nil hgot
  rw [readBlock, if_neg (by omega), hread]

theorem decodeBlock_append (hdecode : codec.decompress b = some chunk)
    (hinBuf : d.inBuf = b ++ rest) :
    decodeBlock codec d b.length = (.ok true, { d with pending := chunk }) := by
  rw [decodeBlock, hinBuf, List.take_left, hdecode]

theorem readBlock_block (hdecode : codec.decompress b = some chunk)
    (hpos : 0 < b.length) (hle : b.length ≤ d.inBuf.length)
    (hevents : Reader.OnlyShort d.reader.events) (hdata : d.reader.data = b ++ rest) :
    ∃ d', readBlock codec d b.length = (.ok true, d') ∧ d'.pending = chunk ∧
      d'.reader.data = rest ∧ Reader.OnlyShort d'.reader.events ∧
      d'.inBuf.length = d.inBuf.length := by
  obtain ⟨n, events, hread, hshort, hn, hn0⟩ := read_onlyShort hevents b.length
  have hnpos : 0 < n := hn0 hpos
  have htake : (b ++ rest).take n = b.take n := List.take_append_of_le_length hn
  have hlength : (b.take n).length = n := by
    rw [List.length_take]
    omega
  have hne : b.take n ≠ [] := take_ne_nil hnpos (List.ne_nil_of_length_pos hpos)
  rw [hdata, htake] at hread
  rw [readBlock_of_read hle hne hread, hlength]
  by_cases hfull : n = b.length
  · -- one read was enough
    have hall : b.take n = b := by rw [hfull, List.take_length]
    rw [if_neg (not_not.2 hfull), hall]
    refine ⟨_, decodeBlock_append hdecode rfl, rfl, ?_, hshort, ?_⟩
    · rw [hfull, List.drop_left]
    · simp only [List.length_append, List.length_drop]
      omega
  · -- the rest is fetched by `read_exact`
    rw [if_pos hfull]
    have hrest : (b ++ rest).drop n = b.drop n ++ rest := List.drop_append_of_le_length hn
    have hlen : b.length - n ≤ ((b ++ rest).drop n).length := by
      rw [hrest, List.length_append, List.length_drop]
      omega
    obtain ⟨events', hexact, hshort'⟩ := readExact_onlyShort
      (r := ⟨(b ++ rest).drop n, events⟩) hshort hlen
    have hblength : (b.drop n).length = b.length - n := List.length_drop
    rw [hrest, List.take_left' hblength, List.drop_left' hblength] at hexact
    rw [hrest, hexact]
    have hwhole : b.take n ++ b.drop n = b := List.take_append_drop n b
    refine ⟨_, decodeBlock_append hdecode (by rw [hwhole]), rfl, rfl, hshort', ?_⟩
    simp only [hwhole, List.length_append, List.length_drop]
    omega

theorem fill_of_word {size : Nat} {events : List Reader.Event}
    (hn : n < 256 ^ 4) (hsize : n = size) (hmagic : size ≠ lz4Magic)
    (hread : Reader.readExact d.reader 4 = (.ok (leBytes 4 n), ⟨rest, events⟩)) :
    fill codec d = readBlock codec { d with reader := ⟨rest, events⟩ } size := by
  subst hsize
  rw [fill, hread]
  simp only [ofLe_leBytes_of_lt hn, if_neg hmagic]

theorem bound_lt_magic (hn : n ≤ compressBound lz4BlockSize) :
    n < lz4Magic ∧ n < 256 ^ 4 := by
  have hbound : compressBound lz4BlockSize < lz4Magic := by decide
  have hmagic : lz4Magic < 256 ^ 4 := by decide
  omega

theorem ofLe_magic : ofLe (leBytes 4 lz4Magic) = lz4Magic := ofLe_leBytes_of_lt (by decide)

/-- The next block, with or without the magic number of a new archive before it. -/
theorem fill_block {magic : List UInt8} (hmagic : magic = [] ∨ magic = leBytes 4 lz4Magic)
    (hdecode : codec.decompress b = some chunk)
    (hpos : 0 < b.length) (hle : b.length ≤ compressBound lz4BlockSize)
    (hinBuf : d.inBuf.length = compressBound lz4BlockSize)
    (hevents : Reader.OnlyShort d.reader.events)
    (hdata : d.reader.data = magic ++ (leBytes 4 b.length ++ (b ++ rest))) :
    ∃ d', fill codec d = (.ok true, d') ∧ d'.pending = chunk ∧ d'.reader.data = rest ∧
      Reader.OnlyShort d'.reader.events ∧ d'.inBuf.length = compressBound lz4BlockSize := by
  obtain ⟨hlt, hword⟩ := bound_lt_magic hle
  have hblock : ∃ events, fill codec d = readBlock codec { d with reader := ⟨b ++ rest, events⟩ } b.length ∧
      Reader.OnlyShort events := by
    rcases hmagic with rfl | rfl
    · obtain ⟨events, hread, hshort⟩ := readExact_word hevents hdata
      exact ⟨events, fill_of_word hword rfl hlt.ne hread, hshort⟩
    · obtain ⟨events, hread, hshort⟩ := readExact_word hevents hdata
      obtain ⟨events', hread', hshort'⟩ := readExact_word (n := b.length)
        (r := ⟨leBytes 4 b.length ++ (b ++ rest), events⟩) hshort rfl
      refine ⟨events', ?_, hshort'⟩
      rw [fill, hread]
      simp only [ofLe_magic, if_true, hread', ofLe_leBytes_of_lt hword]
  obtain ⟨events, hfill, hshort⟩ := hblock
  rw [hfill, ← hinBuf]
  exact readBlock_block (d := { d with reader := ⟨b ++ rest, events⟩ }) hdecode hpos
    (by rw [hinBuf]; exact hle) hshort rfl

theorem fill_eof (hevents : Reader.OnlyShort d.reader.events) (hdata : d.reader.data = []) :
    ∃ events, fill codec d = (.ok false, { d with reader := ⟨[], events⟩ }) ∧
      Reader.OnlyShort events := by
  obtain ⟨events, hread, hshort⟩ := readExact_eof hevents 4 (by simp [hdata])
  exact ⟨events, by rw [fill, hread], hshort⟩

theorem fill_total {total : Nat} (htotal : total < 256 ^ 4) (hmagic : total ≠ lz4Magic)
    (hevents : Reader.OnlyShort d.reader.events)
    (hdata : d.reader.data = leBytes 4 total) :
    ∃ events, fill codec d = (.ok false, { d with reader := ⟨[], events⟩ }) ∧
      Reader.OnlyShort events := by
  rw [← List.append_nil (leBytes 4 _)] at hdata
  obtain ⟨events, hread, hshort⟩ := readExact_word hevents hdata
  rw [fill_of_word htotal rfl hmagic hread, readBlock]
  by_cases hlarge : d.inBuf.length < total
  · exact ⟨events, by rw [if_pos hlarge], hshort⟩
  · -- the size would fit the buffer, but the reader is at its end
    obtain ⟨n, events', hend, hshort', -, -⟩ := read_onlyShort (r := ⟨[], events⟩) hshort total
    rw [List.take_nil, List.drop_nil] at hend
    exact ⟨events', by rw [if_neg hlarge, hend], hshort'⟩

theorem fill_total_magic (hevents : Reader.OnlyShort d.reader.events)
    (hdata : d.reader.data = leBytes 4 lz4Magic) :
    ∃ d', fill codec d = (.error .unexpectedEof, d') := by
  rw [← List.append_nil (leBytes 4 _)] at hdata
  obtain ⟨events, hread, hshort⟩ := readExact_word hevents hdata
  obtain ⟨events', hread', -⟩ := readExact_eof (r := ⟨[], events⟩) hshort 4 (by simp)
  rw [fill, hread]
  simp only [ofLe_magic, if_true, hread']
  exact ⟨_, rfl⟩

theorem read_serves {tail x : List UInt8} (hd : Serves codec tail d x) (hx : x ≠ []) {len : Nat}
    (hlen : 0 < len) :
    ∃ out d' x', read codec d len = (.ok out, d') ∧ out ≠ [] ∧ x = out ++ x' ∧
      Serves codec tail d' x' := by
  obtain ⟨y, harchive, rfl⟩ := hd.archive
  by_cases hpending : d.pending = []
  · rw [hpending, List.nil_append] at hx ⊢
    -- both kinds of block end with their chunk in the output buffer
    have hfilled : ∃ chunk x d', fill codec d = (.ok true, d') ∧ chunk ≠ [] ∧ y = chunk ++ x ∧
        d'.pending = chunk ∧ Archive codec tail d'.reader.data x ∧
        Reader.OnlyShort d'.reader.events ∧ d'.inBuf.length = compressBound lz4BlockSize := by
      generalize hdata : d.reader.data = data at harchive
      cases harchive with
      | done => exact absurd rfl hx
      | block hdecode hchunk hpos hle hrest =>
          obtain ⟨d', hfill, hpending', hdata', hevents', hinBuf'⟩ :=
            fill_block (.inl rfl) hdecode hpos hle hd.inBuf hd.events hdata
          exact ⟨_, _, d', hfill, hchunk, rfl, hpending', by rwa [hdata'], hevents', hinBuf'⟩
      | magic hdecode hchunk hpos hle hrest =>
          obtain ⟨d', hfill, hpending', hdata', hevents', hinBuf'⟩ :=
            fill_block (.inr rfl) hdecode hpos hle hd.inBuf hd.events hdata
          exact ⟨_, _, d', hfill, hchunk, rfl, hpending', by rwa [hdata'], hevents', hinBuf'⟩
    obtain ⟨chunk, x, d', hfill, hchunk, rfl, hpending', harchive', hevents', hinBuf'⟩ := hfilled
    refine ⟨chunk.take len, { d' with pending := chunk.drop len }, chunk.drop len ++ x, ?_,
      take_ne_nil hlen hchunk, ?_, hinBuf', hevents', x, harchive', rfl⟩
    · rw [read, if_pos hpending, hfill]
      simp only [copyOut, hpending']
    · rw [← List.append_assoc, List.take_append_drop]
  · refine ⟨d.pending.take len, { d with pending := d.pending.drop len },
      d.pending.drop len ++ y, ?_, take_ne_nil hlen hpending, ?_, hd.inBuf, hd.events, y,
      harchive, rfl⟩
    · rw [read, if_neg hpending, copyOut]
    · rw [← List.append_assoc, List.take_append_drop]

theorem tail_of_serves {tail : List UInt8} (hd : Serves codec tail d []) :
    d.pending = [] ∧ d.reader.data = tail := by
  obtain ⟨y, harchive, hnil⟩ := hd.archive
  obtain ⟨hpending, rfl⟩ := List.append_eq_nil_iff.1 hnil.symm
  refine ⟨hpending, ?_⟩
  generalize hdata : d.reader.data = data at harchive
  generalize hy : ([] : List UInt8) = y at harchive
  cases harchive with
  | done => rfl
  | block _ hchunk _ _ _ => exact absurd (List.append_eq_nil_iff.1 hy.symm).1 hchunk
  | magic _ hchunk _ _ _ => exact absurd (List.append_eq_nil_iff.1 hy.symm).1 hchunk

end Step

/-- The tails at which the decoder stops without an error. -/
def CleanTail (tail : List UInt8) : Prop :=
  tail = [] ∨ ∃ total, total < 256 ^ 4 ∧ total ≠ lz4Magic ∧ tail = leBytes 4 total

section Run

variable {codec : Codec} {d : Decoder} {tail x : List UInt8}

theorem read_eof (htail : CleanTail tail) (hd : Serves codec tail d []) (len : Nat) :
    ∃ d', read codec d len = (.ok [], d') ∧ Serves codec [] d' [] := by
  obtain ⟨hpending, hdata⟩ := tail_of_serves hd
  have hfill : ∃ events, fill codec d = (.ok false, { d with reader := ⟨[], events⟩ }) ∧
      Reader.OnlyShort events := by
    rcases htail with rfl | ⟨total, htotal, hmagic, rfl⟩
    · exact fill_eof hd.events hdata
    · exact fill_total htotal hmagic hd.events hdata
  obtain ⟨events, hfill, hshort⟩ := hfill
  refine ⟨{ d with reader := ⟨[], events⟩ }, ?_, hd.inBuf, hshort, [], .done, ?_⟩
  · rw [read, if_pos hpending, hfill]
  · rw [hpending, List.append_nil]

end Run

end Decoder

/-- The results of consecutive reads hand out `x` in order, none of them empty before all of `x` is
out and all of them empty from then on. -/
structure Delivers (outs : List (List UInt8)) (x : List UInt8) : Prop where
  inOrder : outs.flatten <+: x
  eof_iff : ∀ i out, outs[i]? = some out → (out = [] ↔ (outs.take i).flatten = x)
  complete : x.length < outs.length → outs.flatten = x

theorem Delivers.nil (x : List UInt8) : Delivers [] x :=
  ⟨List.nil_prefix, by simp, by simp⟩

theorem Delivers.cons {out x' : List UInt8} {outs : List (List UInt8)} (hout : out = [] → x' = [])
    (houts : Delivers outs x') : Delivers (out :: outs) (out ++ x') := by
  refine ⟨?_, ?_, ?_⟩
  · rw [List.flatten_cons]
    exact (List.prefix_append_right_inj out).2 houts.inOrder
  · intro i o hi
    cases i with
    | zero =>
        obtain rfl : out = o := by simpa using hi
        rw [List.take_zero, List.flatten_nil]
        constructor
        · intro hnil
          rw [hnil, hout hnil, List.append_nil]
        · intro hnil
          exact (List.append_eq_nil_iff.1 hnil.symm).1
    | succ i =>
        rw [List.take_succ_cons, List.flatten_cons, List.append_cancel_left_eq]
        exact houts.eof_iff i o (by simpa using hi)
  · intro hlen
    rw [List.flatten_cons, List.append_cancel_left_eq]
    by_cases hnil : out = []
    · have hx' := hout hnil
      have hpre := houts.inOrder
      rw [hx'] at hpre ⊢
      exact List.prefix_nil.1 hpre
    · have hpos := List.length_pos_of_ne_nil hnil
      rw [List.length_append, List.length_cons] at hlen
      exact houts.complete (by omega)

theorem reads_deliver {codec : Codec} {d : Decoder} {tail x : List UInt8}
    (htail : Decoder.CleanTail tail) (hd : Serves codec tail d x) (lens : List Nat)
    (hlens : ∀ len ∈ lens, 0 < len) :
    ∃ outs, Decoder.reads codec d lens = .ok outs ∧ outs.length = lens.length ∧
      Delivers outs x := by
  induction lens generalizing d x tail with
  | nil => exact ⟨[], rfl, rfl, .nil x⟩
  | cons len lens ih =>
      have hlens' : ∀ l ∈ lens, 0 < l := fun l hl => hlens l (List.mem_cons_of_mem _ hl)
      by_cases hx : x = []
      · subst hx
        obtain ⟨d', hread, hd'⟩ := Decoder.read_eof htail hd len
        obtain ⟨outs, hreads, hlength, houts⟩ := ih (.inl rfl) hd' hlens'
        refine ⟨[] :: outs, ?_, by rw [List.length_cons, List.length_cons, hlength], ?_⟩
        · simp only [Decoder.reads, hread, hreads]
        · exact houts.cons fun _ => rfl
      · obtain ⟨out, d', x', hread, hout, rfl, hd'⟩ :=
          Decoder.read_serves hd hx (hlens len List.mem_cons_self)
        obtain ⟨outs, hreads, hlength, houts⟩ := ih htail hd' hlens'
        refine ⟨out :: outs, ?_, by rw [List.length_cons, List.length_cons, hlength], ?_⟩
        · simp only [Decoder.reads, hread, hreads]
        · exact houts.cons fun hnil => absurd hnil hout

end MagiskNative.Compress
