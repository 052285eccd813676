import MagiskNative.Lib.Scatter
import MagiskNative.Boot.PayloadReads

/-!
# Where a payload is written

An operation names its destination by a list of extents in blocks. Those with data write all of it from the
first block of the first extent on.
-/

namespace MagiskNative.Boot.UpdatePayload

open Bytes Layout Outcome

variable {off : Nat} {out out' data : List UInt8} {st : State} {op : InstallOperation}

def Extent.bytes (blockSize : Nat) (ext : Extent) : Nat × Nat :=
  (ext.startBlock.getD 0 * blockSize, ext.numBlocks.getD 0 * blockSize)

def InstallOperation.delivered (t : Tool) (op : InstallOperation) (data : List UInt8) :
    Option (List UInt8) :=
  match op.typePb with
  | .replace => some data
  | .replaceBz | .replaceXz =>
      match decode t data with
      | .ok content => some content
      | _ => none
  | _ => none

section Inversion

variable {t : Tool} {blockSize : Nat} {st st' : State} {op : InstallOperation}

theorem outOffset_eq_ok_iff :
    op.outOffset blockSize = .ok off ↔
      ∃ start, op.dstExtents.head?.bind Extent.startBlock = some start ∧
        off = start * blockSize % 2 ^ 64 := by
  rw [InstallOperation.outOffset, bind_eq_ok]
  constructor
  · rintro ⟨ext, hext, hoff⟩
    obtain ⟨start, hstart, hoff⟩ := Outcome.bind_eq_ok.1 hoff
    rw [ofOption_eq_ok] at hext hstart
    refine ⟨start, ?_, (Outcome.ok.inj hoff).symm⟩
    rw [hext, Option.bind_some, hstart]
  · rintro ⟨start, hstart, rfl⟩
    obtain ⟨ext, hext, hstart⟩ := Option.bind_eq_some_iff.1 hstart
    refine ⟨ext, Outcome.ofOption_eq_ok.2 hext, ?_⟩
    rw [hstart]
    rfl

theorem operate_eq_ok_iff_fetch :
    operate t blockSize st op = .ok st' ↔
      ∃ data off, fetch t st op = .ok (data, st'.reader) ∧ op.outOffset blockSize = .ok off ∧
        writeOperation t blockSize st.outFile op data off = .ok st'.outFile ∧
        st'.currDataOffset = (op.sortKey + op.readLen t) % 2 ^ 64 := by
  rw [operate_eq, bind_eq_ok]
  constructor
  · rintro ⟨⟨data, reader⟩, hfetch, hrun⟩
    obtain ⟨off, hoff, hrun⟩ := Outcome.bind_eq_ok.1 hrun
    obtain ⟨outFile, hwrite, hrun⟩ := Outcome.bind_eq_ok.1 hrun
    cases hrun
    exact ⟨data, off, hfetch, hoff, hwrite, rfl⟩
  · rintro ⟨data, off, hfetch, hoff, hwrite, hcurr⟩
    refine ⟨_, hfetch, ?_⟩
    simp only [hoff, ok_bind, hwrite, ← hcurr]
    rfl

theorem writeOperation_of_delivered {content : List UInt8}
    (hcontent : op.delivered t data = some content) :
    writeOperation t blockSize out op data off = .ok out' ↔
      Writable ⟨off, content⟩ ∧ out' = (⟨off, content⟩ : Write).apply out := by
  rw [← seek_writeAll_eq_ok_iff]
  have hdecoded : (match decode t data with | .ok content => some content | _ => none) = some content →
      ((do
        seekTo off
        Outcome.mapErr (fun _ => Error.badPayload "decompression failed") do
          let content ← decode t data
          writeAll out off content) = .ok out' ↔
        (do
          seekTo off
          writeAll out off content) = .ok out') := by
    intro hcontent
    cases hdecode : decode t data with
    | ok decoded =>
        rw [hdecode, Option.some.injEq] at hcontent
        rw [ok_bind, hcontent, bind_eq_ok, bind_eq_ok]
        simp only [mapErr_eq_ok]
    | err error =>
        rw [hdecode] at hcontent
        cases hcontent
    | panic =>
        rw [hdecode] at hcontent
        cases hcontent
  rw [InstallOperation.delivered] at hcontent
  rw [writeOperation]
  cases htype : op.typePb <;> simp only [htype] at hcontent ⊢
  case replace => rw [Option.some.inj hcontent]
  case replaceBz => exact hdecoded hcontent
  case replaceXz => exact hdecoded hcontent
  all_goals cases hcontent

end Inversion

/-- Operations of a type with these extents distribute their content, if it has the size for that, and
leave all else in the output alone. -/
def Distributes (blockSize : Nat) (typePb : OpType) (exts : List Extent) : Prop :=
  ∀ t op st st' data reader content, op.typePb = typePb → op.dstExtents = exts →
    operate t blockSize st op = .ok st' → fetch t st op = .ok (data, reader) →
    op.delivered t data = some content →
    content.length = extentOf (exts.map (Extent.bytes blockSize)) →
    st'.outFile = Write.applyAll st.outFile (scatter (exts.map (Extent.bytes blockSize)) content) ∧
      ∀ i < st.outFile.length,
        (∀ ext ∈ exts, i ∉ Set.Ico (ext.bytes blockSize).1
          ((ext.bytes blockSize).1 + (ext.bytes blockSize).2)) →
        st'.outFile[i]? = st.outFile[i]?

section Distribution

variable {blockSize : Nat} {typePb : OpType} {exts : List Extent}

theorem exists_operate (htype : typePb ∈ [OpType.replace, .replaceBz, .replaceXz]) {start : Nat}
    (hstart : exts.head?.bind Extent.startBlock = some start) {content : List UInt8}
    (hroom : start * blockSize % 2 ^ 64 + content.length < 2 ^ 63) :
    ∃ t op st st' data reader, op.typePb = typePb ∧ op.dstExtents = exts ∧
      operate t blockSize st op = .ok st' ∧ fetch t st op = .ok (data, reader) ∧
      op.delivered t data = some content ∧ st.outFile = [] ∧
      st'.outFile = (⟨start * blockSize % 2 ^ 64, content⟩ : Write).apply [] := by
  let data := if typePb = .replace then content else stamp .bzip2
  let t : Tool :=
    ⟨64, { Compress.Coders.sample with decode := fun _ _ => some content }, fun _ => none⟩
  let op : InstallOperation := ⟨typePb, some 0, some data.length, exts⟩
  let st : State := ⟨⟨data, 0, true⟩, 0, []⟩
  have hlength : data.length < 2 ^ 63 := by
    by_cases hreplace : typePb = .replace
    · simp only [data, if_pos hreplace]
      omega
    · simp only [data, if_neg hreplace]
      decide
  have hread : op.readLen t = data.length := Nat.mod_eq_of_lt (by
    simp only [op, InstallOperation.dataLen, Option.getD_some, t]
    omega)
  have hfetch : fetch t st op = .ok (data, ⟨data, data.length, true⟩) := by
    have hskip : (op.sortKey + (2 ^ 64 - st.currDataOffset)) % 2 ^ 64 % 2 ^ t.usize = 0 := by
      simp only [op, st, t, InstallOperation.sortKey, Option.getD_some, Nat.sub_zero, Nat.zero_add,
        Nat.mod_self, Nat.zero_mod]
    have hseek : seekData t st op = .ok ⟨data, 0, true⟩ := by
      rw [seekData_eq_ok_iff, hskip, Source.skip_of_le (Nat.zero_le _) hlength]
      exact ⟨rfl, rfl, hread.symm ▸ hlength, rfl⟩
    rw [fetch, hseek, ok_bind, hread, Source.readExact_of_le (by simp only; omega)]
    simp only [Nat.zero_add, slice, List.drop_zero, List.take_length]
  have hdelivered : op.delivered t data = some content := by
    simp only [List.mem_cons, List.not_mem_nil, or_false] at htype
    rcases htype with rfl | rfl | rfl <;> rfl
  have hoff : op.outOffset blockSize = .ok (start * blockSize % 2 ^ 64) :=
    outOffset_eq_ok_iff.2 ⟨start, hstart, rfl⟩
  refine ⟨t, op, st, ⟨⟨data, data.length, true⟩, (op.sortKey + op.readLen t) % 2 ^ 64,
    (⟨start * blockSize % 2 ^ 64, content⟩ : Write).apply []⟩, data, _, rfl, rfl, ?_, hfetch,
    hdelivered, rfl, rfl⟩
  refine operate_eq_ok_iff_fetch.2 ⟨data, _, hfetch, hoff, ?_, rfl⟩
  exact (writeOperation_of_delivered hdelivered).2
    ⟨⟨by simp only; omega, .inr (by simp only; omega)⟩, rfl⟩

/-- **Several extents.** Content is distributed over them if each begins where the one before it
ends, or if there is no room for it. -/
theorem distributes_iff (htype : typePb ∈ [OpType.replace, .replaceBz, .replaceXz]) :
    Distributes blockSize typePb exts ↔
      ∀ start, exts.head?.bind Extent.startBlock = some start →
        start * blockSize % 2 ^ 64 + extentOf (exts.map (Extent.bytes blockSize)) < 2 ^ 63 →
        Adjacent (start * blockSize % 2 ^ 64) (exts.map (Extent.bytes blockSize)) := by
  constructor
  · intro hdistributes start hstart hroom
    apply adjacent_of_applyAll_scatter
    intro content hlength
    obtain ⟨t, op, st, st', data, reader, hop, hexts, hrun, hfetch, hcontent, hempty, hout⟩ :=
      exists_operate htype hstart (hlength.symm ▸ hroom)
    obtain ⟨hscatter, -⟩ :=
      hdistributes t op st st' data reader content hop hexts hrun hfetch hcontent hlength
    rw [← hout, hscatter, hempty]
  · intro hadjacent t op st st' data reader content _ hexts hrun hfetch hcontent hlength
    obtain ⟨data', off, hfetch', hoff, hwrite, -⟩ := operate_eq_ok_iff_fetch.1 hrun
    obtain ⟨rfl, -⟩ := Prod.mk.inj (Outcome.ok.inj (hfetch.symm.trans hfetch'))
    obtain ⟨start, hstart, rfl⟩ := outOffset_eq_ok_iff.1 hoff
    obtain ⟨⟨hseek, hroom⟩, hout⟩ := (writeOperation_of_delivered hcontent).1 hwrite
    have hfits : start * blockSize % 2 ^ 64 + content.length < 2 ^ 63 := by
      rcases hroom with hnil | hroom
      · rwa [show content = [] from hnil]
      · exact hroom
    have hscatter : st'.outFile
        = Write.applyAll st.outFile (scatter (exts.map (Extent.bytes blockSize)) content) := by
      rw [hout, applyAll_scatter_of_adjacent hlength
        (hadjacent start (hexts ▸ hstart) (hlength ▸ hfits))]
    refine ⟨hscatter, fun i hi houtside => ?_⟩
    have hnone : Write.lastByte (scatter (exts.map (Extent.bytes blockSize)) content) i = none := by
      rw [Option.eq_none_iff_forall_ne_some]
      intro b hlast
      obtain ⟨w, hw, hle, hbyte⟩ := Write.mem_of_lastByte hlast
      obtain ⟨r, hr, hsub⟩ := range_subset_of_mem_scatter hw
      obtain ⟨ext, hext, rfl⟩ := List.mem_map.1 hr
      obtain ⟨hlt, -⟩ := List.getElem?_eq_some_iff.1 hbyte
      exact houtside ext hext (hsub ⟨hle, by omega⟩)
    rw [hscatter, Write.getElem?_applyAll, hnone, Option.none_or, if_pos hi]

end Distribution

theorem distributes_adjacent :
    Distributes 1 .replaceXz [⟨some 3, some 2⟩, ⟨some 0, some 0⟩, ⟨some 5, some 1⟩] := by
  refine (distributes_iff (by decide)).2 fun start hstart _ => ?_
  cases hstart
  decide

theorem not_distributes_gap : ¬ Distributes 1 .replace [⟨some 0, some 1⟩, ⟨some 2, some 1⟩] := by
  intro hdistributes
  obtain ⟨hout, -⟩ := hdistributes sampleTool
    ⟨.replace, some 0, some 2, [⟨some 0, some 1⟩, ⟨some 2, some 1⟩]⟩ ⟨⟨[1, 2], 0, true⟩, 0, []⟩
    ⟨⟨[1, 2], 2, true⟩, 2, [1, 2]⟩ [1, 2] ⟨[1, 2], 2, true⟩ [1, 2] rfl rfl rfl rfl rfl rfl
  exact absurd hout (by decide)

section Writes

variable (t : Tool) (blockSize : Nat)

def Extent.zeroWrite (ext : Extent) : Write :=
  ⟨(ext.bytes blockSize).1 % 2 ^ 64, zeros (ext.numBlocks.getD 0 % 2 ^ t.usize)⟩

def InstallOperation.writes (op : InstallOperation) (data : List UInt8) : List Write :=
  match op.typePb with
  | .zero => op.dstExtents.map (Extent.zeroWrite t blockSize)
  | _ => [⟨op.startBlock * blockSize % 2 ^ 64, (op.delivered t data).getD []⟩]

/-- The position behind a skip by a distance that is taken for a signed one if the file can seek. -/
def Source.skipped (s : Source) (len : Nat) : Nat :=
  let offset : Int := s.pos + if len < 2 ^ 63 then (len : Int) else len - 2 ^ 64
  if s.seekable ∧ 0 ≤ offset ∧ offset < 2 ^ 63 then offset.toNat else s.pos + len

/-- The operations with the bytes of the file that their offsets and lengths lead to. -/
def picked : Source → Nat → List InstallOperation → List (InstallOperation × List UInt8)
  | _, _, [] => []
  | s, curr, op :: ops =>
      let pos := s.skipped ((op.sortKey + (2 ^ 64 - curr)) % 2 ^ 64 % 2 ^ t.usize)
      (op, slice s.data pos (op.readLen t)) ::
        picked { s with pos := pos + op.readLen t } ((op.sortKey + op.readLen t) % 2 ^ 64) ops

def planned (reader : Source) (ops : List InstallOperation) : List Write :=
  (picked t reader 0 (sortOperations ops)).flatMap fun x => x.1.writes t blockSize x.2

variable {t blockSize}

theorem Source.skip_eq_ok {s s' : Source} {len : Nat} (hskip : s.skip len = .ok s') :
    s' = { s with pos := s.skipped len } := by
  simp only [skip] at hskip
  simp only [skipped]
  generalize (if len < 2 ^ 63 then (len : Int) else len - 2 ^ 64) = move at hskip ⊢
  split at hskip
  · rename_i hseek
    rw [if_pos hseek]
    exact (Outcome.ok.inj hskip).symm
  · rename_i hseek
    rw [if_neg hseek]
    exact (skipRead_eq_ok_iff.1 hskip).2

theorem fetch_eq_ok {reader : Source} (hfetch : fetch t st op = .ok (data, reader)) :
    let pos := st.reader.skipped ((op.sortKey + (2 ^ 64 - st.currDataOffset)) % 2 ^ 64 % 2 ^ t.usize)
    data = slice st.reader.data pos (op.readLen t) ∧ reader = { st.reader with pos := pos + op.readLen t } := by
  obtain ⟨behind, hseek, hread⟩ := Outcome.bind_eq_ok.1 hfetch
  obtain ⟨-, -, -, hskip⟩ := seekData_eq_ok_iff.1 hseek
  obtain rfl := Source.skip_eq_ok hskip
  rw [Source.readExact] at hread
  split at hread
  · cases hread
    exact ⟨rfl, rfl⟩
  · cases hread

theorem zeroExtent_eq_ok {ext : Extent} (hzero : zeroExtent t blockSize out ext = .ok out') :
    out' = (ext.zeroWrite t blockSize).apply out := by
  obtain ⟨start, hstart, hzero⟩ := Outcome.bind_eq_ok.1 hzero
  obtain ⟨num, hnum, hzero⟩ := Outcome.bind_eq_ok.1 hzero
  rw [ofOption_eq_ok] at hstart hnum
  obtain ⟨-, hout⟩ := (seek_writeAll_eq_ok_iff
    (w := ⟨start * blockSize % 2 ^ 64, zeros (num % 2 ^ t.usize)⟩)).1 hzero
  rw [hout, Extent.zeroWrite, Extent.bytes, hstart, hnum]
  rfl

theorem foldlM_zeroExtent_eq_ok {exts : List Extent}
    (hzero : exts.foldlM (zeroExtent t blockSize) out = .ok out') :
    out' = Write.applyAll out (exts.map (Extent.zeroWrite t blockSize)) := by
  induction exts generalizing out with
  | nil => exact (Outcome.ok.inj hzero).symm
  | cons ext exts ih =>
      rw [List.foldlM_cons] at hzero
      obtain ⟨next, hnext, hzero⟩ := Outcome.bind_eq_ok.1 hzero
      rw [List.map_cons, Write.applyAll_cons, ← zeroExtent_eq_ok hnext]
      exact ih hzero

theorem delivered_of_writeOperation
    (hwrite : writeOperation t blockSize out op data off = .ok out') (htype : op.typePb ≠ .zero) :
    ∃ content, op.delivered t data = some content := by
  have hdecoded : (do
      seekTo off
      Outcome.mapErr (fun _ => Error.badPayload "decompression failed") do
        let content ← decode t data
        writeAll out off content) = .ok out' →
      ∃ content, (match decode t data with | .ok content => some content | _ => none) = some content := by
    intro hrun
    obtain ⟨-, -, hrun⟩ := Outcome.bind_eq_ok.1 hrun
    obtain ⟨content, hdecode, -⟩ := Outcome.bind_eq_ok.1 (Outcome.mapErr_eq_ok.1 hrun)
    rw [hdecode]
    exact ⟨content, rfl⟩
  rw [writeOperation] at hwrite
  rw [InstallOperation.delivered]
  cases hop : op.typePb <;> simp only [hop] at hwrite ⊢
  case replace => exact ⟨data, rfl⟩
  case zero => exact absurd hop htype
  case replaceBz => exact hdecoded hwrite
  case replaceXz => exact hdecoded hwrite
  all_goals cases hwrite

theorem outFile_of_operate {st' : State} {reader : Source}
    (hrun : operate t blockSize st op = .ok st') (hfetch : fetch t st op = .ok (data, reader)) :
    st'.outFile = Write.applyAll st.outFile (op.writes t blockSize data) := by
  obtain ⟨data', off, hfetch', hoff, hwrite, -⟩ := operate_eq_ok_iff_fetch.1 hrun
  obtain ⟨rfl, -⟩ := Prod.mk.inj (Outcome.ok.inj (hfetch.symm.trans hfetch'))
  obtain ⟨start, hstart, rfl⟩ := outOffset_eq_ok_iff.1 hoff
  by_cases htype : op.typePb = .zero
  · rw [writeOperation, htype] at hwrite
    rw [InstallOperation.writes, htype]
    exact foldlM_zeroExtent_eq_ok hwrite
  · obtain ⟨content, hcontent⟩ := delivered_of_writeOperation hwrite htype
    obtain ⟨-, hout⟩ := (writeOperation_of_delivered hcontent).1 hwrite
    have hwrites : op.writes t blockSize data = [⟨start * blockSize % 2 ^ 64, content⟩] := by
      rw [InstallOperation.writes, InstallOperation.startBlock, hstart, hcontent]
      split
      · rename_i hzero
        exact absurd hzero htype
      · rfl
    rw [hwrites, hout]
    rfl

/-- Along a run that succeeds, the operations write what their data and extents say, one after the other. -/
theorem outFile_of_run {ops : List InstallOperation} {st' : State}
    (hrun : ops.foldlM (operate t blockSize) st = .ok st') :
    st'.outFile = Write.applyAll st.outFile
      ((picked t st.reader st.currDataOffset ops).flatMap fun x => x.1.writes t blockSize x.2) := by
  induction ops generalizing st with
  | nil =>
      rw [List.foldlM_nil, pure_eq, Outcome.ok.injEq] at hrun
      rw [hrun]
      rfl
  | cons op ops ih =>
      rw [List.foldlM_cons] at hrun
      obtain ⟨next, hstep, hrest⟩ := Outcome.bind_eq_ok.1 hrun
      obtain ⟨data, off, hfetch, -, -, hcurr⟩ := operate_eq_ok_iff_fetch.1 hstep
      have hfile := outFile_of_operate hstep hfetch
      obtain ⟨rfl, hreader⟩ := fetch_eq_ok hfetch
      rw [ih hrest, hfile, hcurr, hreader, picked, List.flatMap_cons, Write.applyAll_append]

end Writes

section Zeros

variable (t : Tool) (blockSize : Nat) (reader : Source) (ops : List InstallOperation)

def GetsTo (st : State) (op : InstallOperation) : Prop :=
  ∃ before after, sortOperations ops = before ++ op :: after ∧
    before.foldlM (operate t blockSize) ⟨reader, 0, []⟩ = .ok st

/-- The extents have nothing in common with those of the other operations. -/
def InstallOperation.Apart (op : InstallOperation) : Prop :=
  ∀ other ∈ ops, other ≠ op → ∀ ext ∈ op.dstExtents, ∀ ext' ∈ other.dstExtents,
    Disjoint (Set.Ico (ext.bytes blockSize).1 ((ext.bytes blockSize).1 + (ext.bytes blockSize).2))
      (Set.Ico (ext'.bytes blockSize).1 ((ext'.bytes blockSize).1 + (ext'.bytes blockSize).2))

/-- On success all bytes of the extents of the `ZERO` operations are there and zero, and no `ZERO`
operation is refused for the data that it does not have. -/
structure ZeroesExtents : Prop where
  zeroed : ∀ out, extractOperations t blockSize reader ops = .ok out →
    ∀ op ∈ ops, op.typePb = .zero → op.Apart blockSize ops → ∀ ext ∈ op.dstExtents,
      slice out (ext.bytes blockSize).1 (ext.bytes blockSize).2 = zeros (ext.bytes blockSize).2
  accepted : ∀ st op, GetsTo t blockSize reader ops st op → op.typePb = .zero →
    op.dataLength = none ∨ op.dataOffset = none →
    operate t blockSize st op ≠ .err (.badPayload "data length not found") ∧
      operate t blockSize st op ≠ .err (.badPayload "data offset not found")

/-- There is a write that goes on to the end of the range or farther, and none leaves another byte than
zero in it. -/
structure Cleared (ws : List Write) (range : Nat × Nat) : Prop where
  long : ∃ w ∈ ws, w.bytes ≠ [] ∧ range.1 + range.2 ≤ w.off + w.bytes.length
  clean : ∀ i ∈ Set.Ico range.1 (range.1 + range.2), ∀ b, Write.lastByte ws i = some b → b = 0

variable {t blockSize reader ops}

theorem operate_of_missing (hmissing : op.dataLength = none ∨ op.dataOffset = none) :
    operate t blockSize st op = .err (.badPayload "data length not found") ∨
      operate t blockSize st op = .err (.badPayload "data offset not found") := by
  rw [operate]
  cases hlength : op.dataLength with
  | none => exact .inl rfl
  | some dataLength =>
      rw [hmissing.resolve_left (by rw [hlength]; exact Option.some_ne_none _)]
      exact .inr rfl

theorem slice_eq_zeros_iff {ws : List Write} {range : Nat × Nat} :
    slice (Write.applyAll [] ws) range.1 range.2 = zeros range.2 ↔ range.2 = 0 ∨ Cleared ws range := by
  obtain ⟨off, n⟩ := range
  have hbyte : ∀ i, (Write.applyAll [] ws)[i]? = some 0 ↔
      i < Write.reach ws ∧ ∀ b, Write.lastByte ws i = some b → b = 0 := by
    intro i
    rw [Write.getElem?_applyAll, List.length_nil, if_neg (Nat.not_lt_zero i)]
    cases hlast : Write.lastByte ws i with
    | none =>
        rw [Option.none_or]
        split <;> simp [*]
    | some b =>
        have hreach := Write.lt_reach_of_lastByte hlast
        simp [hreach]
  have hslice : slice (Write.applyAll [] ws) off n = zeros n ↔
      ∀ i < n, (Write.applyAll [] ws)[off + i]? = some 0 := by
    constructor
    · intro hzeros i hi
      have hget := getElem?_slice (Write.applyAll [] ws) off n i
      rw [if_pos hi, hzeros, zeros, List.getElem?_replicate, if_pos hi] at hget
      exact hget.symm
    · intro hbytes
      apply List.ext_getElem?
      intro i
      rw [getElem?_slice, zeros, List.getElem?_replicate]
      split
      · rename_i hi
        exact hbytes i hi
      · rfl
  rw [hslice]
  simp only [hbyte]
  constructor
  · intro hall
    rw [or_iff_not_imp_left]
    intro hn
    obtain ⟨w, hw, hne, hend⟩ := Write.lt_reach_iff.1 (hall (n - 1) (by omega)).1
    refine ⟨⟨w, hw, hne, by simp only; omega⟩, fun i hi b hlast => ?_⟩
    rw [Set.mem_Ico] at hi
    refine (hall (i - off) (by omega)).2 b ?_
    rwa [Nat.add_sub_cancel' hi.1]
  · rintro (hn | ⟨⟨w, hw, hne, hend⟩, hclean⟩) i hi
    · omega
    · simp only at hend
      exact ⟨Write.lt_reach_iff.2 ⟨w, hw, hne, by omega⟩, hclean (off + i) (Set.mem_Ico.2 ⟨by omega, by omega⟩)⟩

end Zeros

def zeroBlock (data : Option Nat) : InstallOperation := ⟨.zero, data, data, [⟨some 0, some 1⟩]⟩

end MagiskNative.Boot.UpdatePayload
