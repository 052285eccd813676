import MagiskNative.Lib.Loop
import MagiskNative.Boot.Env

/-!
# Telling LZ4_LG from LZ4_LEGACY

The two variants differ in a word at the end, the size of the content, which `check_fmt_lg` takes for
the size of a block that is not there. It goes from block to block in 32 bits: the size of a block can
lead back to an earlier one, or to the same.
-/

namespace MagiskNative.Boot

open Bytes Loop

/-- One round of the loop in `check_fmt_lg`. The result is `none` if it reads outside the buffer. -/
def lgRound (buf : List UInt8) (sz off : Nat) : Round Nat (Option FileFormat) :=
  if off + 4 ≤ sz then
    if off + 4 ≤ buf.length then
      let blockSz := ofLe (slice buf off 4)
      let off := (off + 4) % 2 ^ 32
      if sz < (off + blockSz) % 2 ^ 32 then .leave (some .lz4Lg)
      else .next ((off + blockSz) % 2 ^ 32)
    else .leave none
  else .leave (some .lz4Legacy)

theorem lgLoop_eq_run (buf : List UInt8) (sz rounds off : Nat) :
    lgLoop buf sz rounds off = (run (lgRound buf sz) rounds off).join := by
  induction rounds generalizing off with
  | zero => rfl
  | succ rounds ih =>
      rw [lgLoop, run, lgRound]
      split
      · split
        · simp only [ih]
          split <;> rfl
        · rfl
      · rfl

section

variable {buf : List UInt8} {sz : Nat}

theorem lgRound_eq_next {off next : Nat} (hround : lgRound buf sz off = .next next) :
    off + 4 ≤ sz ∧ off + 4 ≤ buf.length ∧ next ≤ sz ∧
      next = ((off + 4) % 2 ^ 32 + ofLe (slice buf off 4)) % 2 ^ 32 := by
  simp only [lgRound] at hround
  split at hround
  · rename_i hsz
    split at hround
    · rename_i hbuf
      split at hround
      · cases hround
      · rename_i hnext
        cases hround
        exact ⟨hsz, hbuf, Nat.not_lt.1 hnext, rfl⟩
    · cases hround
  · cases hround

end

/-- The walk over the blocks of a buffer ends, inside the buffer, and its offset only grows. -/
structure LgProgress (buf : List UInt8) : Prop where
  ends : ∃ fmt, checkFmtLg buf buf.length = some fmt
  inside : ∀ off, Visits (lgRound buf buf.length) 4 off →
    lgRound buf buf.length off ≠ .leave none
  increases : checkFmt buf = .lz4Legacy → ∀ off next, Visits (lgRound buf buf.length) 4 off →
    lgRound buf buf.length off = .next next → next = off + 4 + ofLe (slice buf off 4) ∧ off < next

theorem lgRound_block {pre rest body : List UInt8} (hbody : body.length < 256 ^ 4)
    (hlength : (pre ++ (leBytes 4 body.length ++ body) ++ rest).length < 2 ^ 32) :
    lgRound (pre ++ (leBytes 4 body.length ++ body) ++ rest)
        (pre ++ (leBytes 4 body.length ++ body) ++ rest).length pre.length
      = .next (pre ++ (leBytes 4 body.length ++ body)).length := by
  have hword : slice (pre ++ (leBytes 4 body.length ++ body) ++ rest) pre.length 4
      = leBytes 4 body.length := by
    rw [List.append_assoc, List.append_assoc, ← List.append_assoc]
    exact slice_append_of_length rfl (length_leBytes _ _)
  simp only [List.length_append, length_leBytes] at hlength
  simp only [lgRound, hword, ofLe_leBytes_of_lt hbody, List.length_append, length_leBytes]
  rw [if_pos (by omega), if_pos (by omega), Nat.mod_eq_of_lt (by omega : pre.length + 4 < 2 ^ 32),
    Nat.mod_eq_of_lt (by omega), if_neg (by omega), Nat.add_assoc]

/-- A block as it stands in a stream, its size before its bytes. -/
def framed (body : List UInt8) : List UInt8 := leBytes 4 body.length ++ body

@[simp] theorem length_framed (body : List UInt8) : (framed body).length = 4 + body.length := by
  rw [framed, List.length_append, length_leBytes]

/-- The end of the buffer cuts off the block that stands behind `bodies`: its size word is there, but
not all of its bytes. -/
structure CutBlock (buf : List UInt8) (bodies : List (List UInt8)) (rest : List UInt8) : Prop where
  split : buf = lz4LegMagic ++ bodies.flatMap framed ++ rest
  word : 4 ≤ rest.length
  short : rest.length < 4 + ofLe (rest.take 4)

section

variable {buf : List UInt8} {bodies : List (List UInt8)} {rest : List UInt8}

theorem prefix_of_checkFmt (hfmt : checkFmt buf = .lz4Legacy) : lz4LegMagic <+: buf := by
  by_contra hmagic
  refine absurd hfmt ?_
  simp only [checkFmt, if_neg hmagic]
  repeat' apply ite_ne_of_ne
  all_goals decide

theorem slice_split (hsplit : buf = lz4LegMagic ++ bodies.flatMap framed ++ rest) :
    slice buf (lz4LegMagic ++ bodies.flatMap framed).length 4 = rest.take 4 := by
  rw [hsplit, slice, List.drop_left]

/-- The walk comes to the block behind any number of whole ones. -/
theorem visits_split (hbuf : buf.length < 2 ^ 32)
    (hsplit : buf = lz4LegMagic ++ bodies.flatMap framed ++ rest) :
    Visits (lgRound buf buf.length) 4 (lz4LegMagic ++ bodies.flatMap framed).length := by
  induction bodies using List.reverseRecOn generalizing rest with
  | nil => exact .start
  | append_singleton bodies body ih =>
      rw [List.flatMap_append, List.flatMap_singleton] at hsplit ⊢
      have hvisits := @ih (framed body ++ rest) (by simpa only [List.append_assoc] using hsplit)
      have hblock : buf = lz4LegMagic ++ bodies.flatMap framed ++ (leBytes 4 body.length ++ body) ++ rest := by
        rw [hsplit, framed]
        simp only [List.append_assoc]
      have hlength : body.length < 256 ^ 4 := by
        have := congrArg List.length hblock
        simp only [List.length_append] at this
        omega
      refine hvisits.next ?_
      rw [← List.append_assoc, framed]
      rw [hblock] at hbuf ⊢
      exact lgRound_block hlength hbuf

/-- As long as no cut-off block is announced to end at `2 ^ 32` or later, all that is before the offset
of the walk is whole blocks. The invariant of the walk. -/
theorem exists_split_of_visits (hmagic : lz4LegMagic <+: buf)
    (hcut : ∀ bodies rest, CutBlock buf bodies rest →
      buf.length - rest.length + 4 + ofLe (rest.take 4) < 2 ^ 32)
    (hbuf : buf.length < 2 ^ 32) {off : Nat} (hvisits : Visits (lgRound buf buf.length) 4 off) :
    ∃ (bodies : List (List UInt8)) (rest : List UInt8),
      buf = lz4LegMagic ++ bodies.flatMap framed ++ rest ∧
        off = (lz4LegMagic ++ bodies.flatMap framed).length := by
  refine hvisits.invariant (P := fun off => ∃ (bodies : List (List UInt8)) (rest : List UInt8),
    buf = lz4LegMagic ++ bodies.flatMap framed ++ rest ∧
      off = (lz4LegMagic ++ bodies.flatMap framed).length) ?_ ?_
  · rintro off next ⟨bodies, rest, hsplit, rfl⟩ hround
    obtain ⟨hsz, -, hle, hnext⟩ := lgRound_eq_next hround
    rw [slice_split hsplit] at hnext
    have hlength := congrArg List.length hsplit
    rw [List.length_append] at hlength
    have hword : 4 ≤ rest.length := by omega
    have hwhole : 4 + ofLe (rest.take 4) ≤ rest.length := by
      by_contra hshort
      have := hcut bodies rest ⟨hsplit, hword, by omega⟩
      omega
    refine ⟨bodies ++ [slice rest 4 (ofLe (rest.take 4))], rest.drop (4 + ofLe (rest.take 4)), ?_, ?_⟩
    · have hbody : (slice rest 4 (ofLe (rest.take 4))).length = ofLe (rest.take 4) :=
        length_slice_of_le hwhole
      have hfirst : leBytes 4 (ofLe (rest.take 4)) = rest.take 4 := by
        have := leBytes_ofLe (rest.take 4)
        rwa [List.length_take, Nat.min_eq_left hword] at this
      rw [List.flatMap_append, List.flatMap_singleton, framed, hbody, hfirst, hsplit]
      simp only [List.append_assoc, List.append_cancel_left_eq]
      rw [← List.drop_drop, slice, List.take_append_drop, List.take_append_drop]
    · rw [List.flatMap_append, List.flatMap_singleton, ← List.append_assoc, List.length_append,
        length_framed, length_slice_of_le hwhole, hnext]
      omega
  · obtain ⟨rest, hrest⟩ := hmagic
    exact ⟨[], rest, by simpa using hrest.symm, rfl⟩

end

/-- **Progress of the walk.** The block that the end of the buffer cuts off, if there is one, must be
announced to end below `2 ^ 32`. -/
theorem lgProgress_iff {buf : List UInt8} (hbuf : buf.length < 2 ^ 32) :
    LgProgress buf ↔ ∀ bodies rest, CutBlock buf bodies rest →
      buf.length - rest.length + 4 + ofLe (rest.take 4) < 2 ^ 32 := by
  have hinside : ∀ off, lgRound buf buf.length off ≠ .leave none := by
    intro off hleave
    simp only [lgRound] at hleave
    split at hleave
    · split at hleave <;> cases hleave
    · cases hleave
  constructor
  · intro hprogress bodies rest hcut
    have hfmt : checkFmt buf = .lz4Legacy := by
      apply checkFmt_of_hasMagic
      rw [hcut.split, List.append_assoc]
      exact List.prefix_append _ _
    by_contra hwraps
    have hlength := congrArg List.length hcut.split
    rw [List.length_append] at hlength
    have hword := ofLe_lt (rest.take 4)
    rw [List.length_take, Nat.min_eq_left hcut.word] at hword
    have hvisits := visits_split hbuf hcut.split
    have hslice := slice_split hcut.split
    have hfits := hcut.word
    generalize (lz4LegMagic ++ bodies.flatMap framed).length = off at hlength hvisits hslice
    have hwrapped : ((off + 4) % 2 ^ 32 + ofLe (slice buf off 4)) % 2 ^ 32
        = off + 4 + ofLe (rest.take 4) - 2 ^ 32 := by
      rw [hslice]
      omega
    -- the end wraps to an offset before the size word
    have hround : lgRound buf buf.length off = .next (off + 4 + ofLe (rest.take 4) - 2 ^ 32) := by
      simp only [lgRound, hwrapped]
      rw [if_pos (by omega), if_pos (by omega), if_neg (by omega)]
    have := (hprogress.increases hfmt _ _ hvisits hround).1
    rw [hslice] at this
    omega
  · intro hcond
    have hincreases : checkFmt buf = .lz4Legacy → ∀ off next,
        Visits (lgRound buf buf.length) 4 off → lgRound buf buf.length off = .next next →
          next = off + 4 + ofLe (slice buf off 4) ∧ off < next := by
      intro hfmt off next hvisits hround
      obtain ⟨bodies, rest, hsplit, rfl⟩ :=
        exists_split_of_visits (prefix_of_checkFmt hfmt) hcond hbuf hvisits
      obtain ⟨hsz, -, hle, hnext⟩ := lgRound_eq_next hround
      have hlength := congrArg List.length hsplit
      rw [List.length_append] at hlength
      rw [slice_split hsplit] at hnext ⊢
      by_cases hshort : rest.length < 4 + ofLe (rest.take 4)
      · have := hcond bodies rest ⟨hsplit, by omega, hshort⟩
        omega
      · omega
    refine ⟨?_, fun off _ => hinside off, hincreases⟩
    rw [checkFmtLg, readFmt_of_le le_rfl, List.take_length, Option.bind_eq_bind, Option.bind_some]
    by_cases hfmt : checkFmt buf = .lz4Legacy
    · rw [if_pos hfmt, lgLoop_eq_run]
      -- each round leaves less of the buffer
      have hless : ∀ off next, Visits (lgRound buf buf.length) 4 off →
          lgRound buf buf.length off = .next next → buf.length + 1 - next < buf.length + 1 - off := by
        intro off next hvisits hround
        have hlt := (hincreases hfmt off next hvisits hround).2
        have hle := (lgRound_eq_next hround).2.2.1
        omega
      obtain ⟨result, hrun⟩ := exists_run_of_measure hless (by omega : buf.length + 1 - 4 < 2 ^ 32)
      obtain ⟨off, -, hleave⟩ := exists_leave_of_run hrun
      cases result with
      | none => exact absurd hleave (hinside off)
      | some fmt => exact ⟨fmt, by rw [hrun]; rfl⟩
    · rw [if_neg hfmt]
      exact ⟨_, rfl⟩

/-- One block, and the size of the content, which no block follows. -/
theorem lgProgress_single : LgProgress (lz4LegMagic ++ framed [0] ++ leBytes 4 7) := by
  refine (lgProgress_iff (by decide)).2 fun bodies rest hcut => ?_
  have hwords : ∀ at' < 14, at' + 4
      + ofLe (((lz4LegMagic ++ framed [0] ++ leBytes 4 7).drop at').take 4) < 2 ^ 32 := by decide
  have hlength : 13 = _ := congrArg List.length hcut.split
  have hrest := congrArg (List.drop (lz4LegMagic ++ bodies.flatMap framed).length) hcut.split
  rw [List.drop_left] at hrest
  rw [List.length_append] at hlength
  have hword := hwords (lz4LegMagic ++ bodies.flatMap framed).length (by omega)
  rw [hrest] at hword
  change 13 - rest.length + 4 + _ < _
  omega

def loopingKernel : List UInt8 := lz4LegMagic ++ leBytes 4 (2 ^ 32 - 4)

theorem lgLoop_stuck {buf : List UInt8} {sz : Nat} (hsz : 8 ≤ sz) (hbuf : 8 ≤ buf.length)
    (hword : ofLe (slice buf 4 4) = 2 ^ 32 - 4) (rounds : Nat) : lgLoop buf sz rounds 4 = none := by
  have hself : lgRound buf sz 4 = .next 4 := by
    rw [lgRound, if_pos hsz, if_pos hbuf, hword]
    exact if_neg (by omega)
  rw [lgLoop_eq_run, run_eq_none_of_self hself]
  rfl

theorem checkFmtLg_looping : checkFmtLg loopingKernel 8 = none := by
  have hfmt : readFmt loopingKernel 8 = some .lz4Legacy := by decide
  have hloop : ∀ rounds, lgLoop loopingKernel 8 rounds 4 = none :=
    lgLoop_stuck le_rfl (by decide) (by decide)
  rw [checkFmtLg, hfmt, Option.bind_eq_bind, Option.bind_some, if_pos rfl]
  exact hloop _

theorem not_lgProgress_looping : ¬ LgProgress loopingKernel := by
  intro hprogress
  obtain ⟨fmt, hfmt⟩ := hprogress.ends
  rw [show loopingKernel.length = 8 from rfl, checkFmtLg_looping] at hfmt
  cases hfmt

section

variable {pre rest : List UInt8}

theorem lgRound_trailer {isLg : Bool} {n : Nat} (hn : 0 < n) {buf : List UInt8}
    (hbuf : buf = pre ++ if isLg then leBytes 4 n else []) (hlength : buf.length + n < 2 ^ 32) :
    lgRound buf buf.length pre.length = .leave (some (if isLg then .lz4Lg else .lz4Legacy)) := by
  subst hbuf
  cases isLg with
  | false =>
      rw [if_neg (by decide), List.append_nil, lgRound, if_neg (by omega)]
      rfl
  | true =>
      rw [if_pos rfl] at hlength ⊢
      have hword : slice (pre ++ leBytes 4 n) pre.length 4 = leBytes 4 n := by
        have hslice := slice_append_right pre (leBytes 4 n) 0 4
        rwa [Nat.add_zero, slice_eq_self (length_leBytes 4 n).le] at hslice
      rw [List.length_append, length_leBytes] at hlength
      simp only [lgRound, hword, List.length_append, length_leBytes,
        ofLe_leBytes_of_lt (by omega : n < 256 ^ 4)]
      rw [if_pos le_rfl, if_pos le_rfl, Nat.mod_eq_of_lt (by omega : pre.length + 4 < 2 ^ 32),
        Nat.mod_eq_of_lt hlength, if_pos (by omega)]
      rfl

variable {codec : Compress.Codec} (hcodec : codec.Bounded)

include hcodec

theorem exists_block_eq {chunk : List UInt8}
    (hchunk : 0 < chunk.length ∧ chunk.length ≤ Compress.lz4BlockSize) :
    ∃ body, Compress.block codec chunk = leBytes 4 body.length ++ body ∧ body.length < 256 ^ 4 := by
  obtain ⟨body, hcompress, -, hbound⟩ := hcodec chunk hchunk.1 hchunk.2
  refine ⟨body, by rw [Compress.block, hcompress]; rfl, lt_of_le_of_lt hbound (by decide)⟩

/-- The induction is on the blocks, and those that the walk has passed move to the front part. -/
theorem run_blocks (chunks : List (List UInt8))
    (hchunks : ∀ chunk ∈ chunks, 0 < chunk.length ∧ chunk.length ≤ Compress.lz4BlockSize)
    {buf : List UInt8} (hbuf : buf = pre ++ chunks.flatMap (Compress.block codec) ++ rest)
    (hlength : buf.length < 2 ^ 32) (rounds : Nat) :
    run (lgRound buf buf.length) (chunks.length + rounds) pre.length
      = run (lgRound buf buf.length) rounds (pre ++ chunks.flatMap (Compress.block codec)).length := by
  induction chunks generalizing pre with
  | nil => simp
  | cons chunk chunks ih =>
      obtain ⟨body, hblock, hbody⟩ := exists_block_eq hcodec (hchunks chunk List.mem_cons_self)
      have hsplit : buf = pre ++ (leBytes 4 body.length ++ body)
          ++ (chunks.flatMap (Compress.block codec) ++ rest) := by
        rw [hbuf, List.flatMap_cons, hblock]
        simp only [List.append_assoc]
      have hround : lgRound buf buf.length pre.length
          = .next (pre ++ (leBytes 4 body.length ++ body)).length := by
        rw [hsplit] at hlength ⊢
        exact lgRound_block hbody hlength
      rw [List.length_cons, Nat.add_right_comm, run_succ_next hround,
        ih (fun c hc => hchunks c (List.mem_cons_of_mem chunk hc)) (hsplit.trans (List.append_assoc _ _ _).symm),
        List.flatMap_cons, hblock, List.append_assoc]

theorem length_le_flatMap (chunks : List (List UInt8))
    (hchunks : ∀ chunk ∈ chunks, 0 < chunk.length ∧ chunk.length ≤ Compress.lz4BlockSize) :
    chunks.length ≤ (chunks.flatMap (Compress.block codec)).length := by
  induction chunks with
  | nil => simp
  | cons chunk chunks ih =>
      obtain ⟨body, hblock, -⟩ := exists_block_eq hcodec (hchunks chunk List.mem_cons_self)
      have hrest := ih fun c hc => hchunks c (List.mem_cons_of_mem chunk hc)
      rw [List.flatMap_cons, hblock]
      simp only [List.length_append, List.length_cons, length_leBytes]
      omega

end

/-- **The variant of a stream.** It is found again, and with it the encoder that wrote the stream. -/
theorem checkFmtLg_encode {codec : Compress.Codec} (hcodec : codec.Bounded) (isLg : Bool)
    {writes : List (List UInt8)} (hwrites : ∀ piece ∈ writes, piece ≠ []) (hne : writes.flatten ≠ [])
    {stream : List UInt8} (hencode : Compress.encode codec isLg writes = some stream)
    (hlength : stream.length + writes.flatten.length < 2 ^ 32) :
    checkFmtLg stream stream.length = some (if isLg then .lz4Lg else .lz4Legacy) ∧
      ∀ (env : Env) x, env.compressBytes (if isLg then .lz4Lg else .lz4Legacy) x
        = (Compress.encode env.lz4 isLg (env.split x)).getD [] := by
  refine ⟨?_, fun env x => by cases isLg <;> rfl⟩
  obtain ⟨chunks, hstream, -, hchunks⟩ := Compress.encode_eq hcodec isLg hwrites hne (by omega)
  rw [hencode, Option.some.injEq] at hstream
  have hmagic : checkFmt stream = .lz4Legacy := by
    apply checkFmt_of_hasMagic
    rw [hstream, List.append_assoc]
    exact List.prefix_append _ _
  have hcount := length_le_flatMap hcodec chunks hchunks
  have hblocks := congrArg List.length hstream
  simp only [List.length_append, length_leBytes] at hblocks
  have hround := lgRound_trailer (List.length_pos_of_ne_nil hne) hstream hlength
  have hrounds : 2 ^ 32 = chunks.length + (2 ^ 32 - chunks.length - 1 + 1) := by omega
  have hrun := run_blocks hcodec chunks hchunks hstream (by omega) (2 ^ 32 - chunks.length - 1 + 1)
  rw [← hrounds, run_succ_leave hround, length_leBytes] at hrun
  rw [checkFmtLg, readFmt_of_le le_rfl, List.take_length, hmagic, Option.bind_eq_bind,
    Option.bind_some, if_pos rfl, lgLoop_eq_run, hrun]
  rfl

theorem length_flatMap_literal {chunks : List (List UInt8)} (hchunks : ∀ chunk ∈ chunks, 0 < chunk.length) :
    (chunks.flatMap (Compress.block Compress.literalCodec)).length ≤ 6 * chunks.flatten.length := by
  induction chunks with
  | nil => simp
  | cons chunk chunks ih =>
      have hpos := hchunks chunk List.mem_cons_self
      have hrest := ih fun c hc => hchunks c (List.mem_cons_of_mem chunk hc)
      have hblock : (Compress.block Compress.literalCodec chunk).length = 5 + chunk.length := by
        simp only [Compress.block, Compress.literalCodec, Option.getD_some, List.length_append,
          length_leBytes, List.length_cons]
        omega
      simp only [List.flatMap_cons, List.flatten_cons, List.length_append, hblock]
      omega

theorem checkFmtLg_encode_two :
    ∃ stream, Compress.encode Compress.literalCodec true [[1, 2]] = some stream ∧
      stream.length + 2 < 2 ^ 32 ∧ checkFmtLg stream stream.length = some .lz4Lg := by
  have hcodec := Compress.literalCodec_lawful.bounded
  have hwrites : ∀ piece ∈ [([1, 2] : List UInt8)], piece ≠ [] := by decide
  obtain ⟨chunks, hencode, hflat, hchunks⟩ :=
    Compress.encode_eq hcodec true hwrites (by decide) (by decide)
  have hblocks := length_flatMap_literal fun chunk hchunk => (hchunks chunk hchunk).1
  rw [hflat, show ([[1, 2]] : List (List UInt8)).flatten.length = 2 from rfl] at hblocks
  refine ⟨_, hencode, ?_, (checkFmtLg_encode hcodec true hwrites (by decide) hencode ?_).1⟩ <;>
  · simp only [List.length_append, length_leBytes, if_true, List.flatten_cons, List.flatten_nil,
      List.length_cons, List.length_nil]
    omega

end MagiskNative.Boot
