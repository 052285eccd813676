import MagiskNative.Boot.Accepted
import MagiskNative.Boot.Repack

/-!
# What repacking writes

The writing pass as a run over pieces: where they go, what stands there afterwards, and what the new
header says of them.
-/

namespace MagiskNative.Boot

open Bytes Layout Header

variable {page header : Nat} {seg : Block × Segment} {segs : List (Block × Segment)} {w : Written}

def Segment.piece (seg : Segment) : Piece := ⟨seg.bytes, seg.aligned⟩

/-- The parts of the header that `repack` may write. -/
def writtenParts : List Part :=
  [.field .kernelSize, .field .ramdiskSize, .field .secondSize, .field .extraSize,
    .field .recoveryDtboSize, .field .recoveryDtboOffset, .field .dtbSize, .field .bootconfigSize,
    .field .osVersion, .field .headerSize, .text .name, .text .cmdline, .text .extraCmdline, .text .id]

def newSize (h : Header) (f : Field) (size : Option Nat) : Nat :=
  match size with
  | some n => if (h.kind.offset f).isSome then n % 2 ^ 32 else 0
  | none => h.get f

theorem sizeField_injective : Function.Injective Block.sizeField := by
  intro a b hab
  cases a <;> cases b <;> first | rfl | cases hab

theorem sizeField_ne_offset (blk : Block) : blk.sizeField ≠ .recoveryDtboOffset := by
  cases blk <;> decide

theorem get_setSize_self (h : Header) (blk : Block) (size : Option Nat) :
    (h.setSize blk size).get blk.sizeField = newSize h blk.sizeField size := by
  cases size with
  | none => rfl
  | some n =>
      rw [Header.setSize, newSize]
      cases hoff : h.kind.offset blk.sizeField with
      | none =>
          rw [h.set_eq_self hoff, get_eq_zero hoff]
          rfl
      | some off =>
          rw [get_set_self hoff, blk.width_sizeField]
          rfl

theorem get_setSize_ne (h : Header) {blk blk' : Block} (hne : blk' ≠ blk) (size : Option Nat) :
    (h.setSize blk size).get blk'.sizeField = h.get blk'.sizeField := by
  cases size with
  | none => rfl
  | some n => exact get_set_ne (fun heq => hne (sizeField_injective heq).symm) n

theorem newSize_congr {h h' : Header} {f : Field} (hkind : h'.kind = h.kind)
    (hget : h'.get f = h.get f) (size : Option Nat) : newSize h' f size = newSize h f size := by
  cases size with
  | none => exact hget
  | some n => rw [newSize, newSize, hkind]

theorem fileAlignWith_eq {fd : List UInt8} (hpos : 0 < page) (hpage : page < 2 ^ 31) :
    fileAlignWith page header fd
      = some (fd ++ zeros (roundUp page (fd.length - header) - (fd.length - header))) :=
  if_pos ⟨hpos, hpage⟩

theorem writeSegment_eq (hpos : 0 < page) (hpage : page < 2 ^ 31) (out : Out) (seg : Block × Segment) :
    writeSegment page header out seg
      = some ⟨put page header out.fd seg.2.piece, describeSegment out.fd.length seg out.hdr,
          out.places ++ [out.fd.length]⟩ := by
  rw [writeSegment, put, Segment.piece]
  cases haligned : seg.2.aligned with
  | true =>
      simp only [if_true, fileAlignWith_eq hpos hpage]
      rfl
  | false => rfl

theorem get_describeSegment (pos : Nat) (seg : Block × Segment) (h : Header) (blk : Block) :
    (describeSegment pos seg h).get blk.sizeField
      = (h.setSize seg.1 seg.2.size).get blk.sizeField := by
  simp only [describeSegment]
  split
  · exact get_set_ne (sizeField_ne_offset blk).symm _
  · rfl

def Settable (seg : Block × Segment) : Prop :=
  seg.2.size = none ∨ .field seg.1.sizeField ∈ writtenParts

theorem sameOutside_describeSegment (pos : Nat) (hseg : Settable seg)
    (h : Header) : h.SameOutside writtenParts (describeSegment pos seg h) := by
  have hoffset : ∀ h : Header, h.SameOutside writtenParts (h.set .recoveryDtboOffset pos) :=
    fun h => Header.SameOutside.set h (by decide) _
  have hsize : h.SameOutside writtenParts (h.setSize seg.1 seg.2.size) := by
    rcases hseg with hnone | hmem
    · rw [hnone]
      exact .refl _ h
    · cases seg.2.size with
      | none => exact .refl _ h
      | some n => exact Header.SameOutside.set h hmem n
  simp only [describeSegment]
  split
  · exact hsize.trans (hoffset _)
  · exact hsize

/-- A run of the writing pass: what it puts into the file, where, and what it says of it in the header. -/
structure Run (page header : Nat) (out : Out) (segs : List (Block × Segment)) (out' : Out) :
    Prop where
  fd : out'.fd = (segs.map fun seg => seg.2.piece).foldl (put page header) out.fd
  places : out'.places = out.places ++
    (Layout.places page (out.fd.length - header) (segs.map fun seg => seg.2.piece)).map (header + ·)
  hdr : out.hdr.SameOutside writtenParts out'.hdr
  size_of_not_mem : ∀ blk, blk ∉ segs.map Prod.fst →
    out'.hdr.get blk.sizeField = out.hdr.get blk.sizeField
  size_of_mem : ∀ seg ∈ segs,
    out'.hdr.get seg.1.sizeField = newSize out.hdr seg.1.sizeField seg.2.size

theorem run_nil (page header : Nat) (out : Out) : Run page header out [] out where
  fd := rfl
  places := by simp [Layout.places]
  hdr := .refl _ _
  size_of_not_mem _ _ := rfl
  size_of_mem := by simp

theorem run_cons (hpos : 0 < page) {out out' : Out}
    (hbase : header ≤ out.fd.length) (hseg : Settable seg)
    (hnew : seg.1 ∉ segs.map Prod.fst)
    (hrun : Run page header ⟨put page header out.fd seg.2.piece,
      describeSegment out.fd.length seg out.hdr, out.places ++ [out.fd.length]⟩ segs out') :
    Run page header out (seg :: segs) out' where
  fd := hrun.fd
  places := by
    have hplaces := hrun.places
    rw [length_put hpos hbase, Nat.add_sub_cancel_left] at hplaces
    rw [hplaces, List.map_cons, Layout.places, List.map_cons, Nat.add_sub_cancel' hbase,
      List.append_assoc]
    rfl
  hdr := (sameOutside_describeSegment _ hseg out.hdr).trans hrun.hdr
  size_of_not_mem blk hblk := by
    rw [List.map_cons, List.mem_cons, not_or] at hblk
    rw [hrun.size_of_not_mem blk hblk.2]
    exact (get_describeSegment _ _ _ _).trans (get_setSize_ne _ hblk.1 _)
  size_of_mem seg' hmem := by
    rcases List.mem_cons.1 hmem with rfl | hmem
    · rw [hrun.size_of_not_mem _ hnew]
      exact (get_describeSegment _ _ _ _).trans (get_setSize_self _ _ _)
    · rw [hrun.size_of_mem seg' hmem]
      have hne : seg'.1 ≠ seg.1 := fun heq => hnew (heq ▸ List.mem_map_of_mem hmem)
      exact newSize_congr (sameOutside_describeSegment _ hseg out.hdr).1
        ((get_describeSegment _ _ _ _).trans (get_setSize_ne _ hne _)) _

/-- The loop over the segments is a run, from any state of the file. -/
theorem foldlM_writeSegment (hpos : 0 < page) (hpage : page < 2 ^ 31)
    (segs : List (Block × Segment)) (hsegs : ∀ seg ∈ segs, Settable seg)
    (hnodup : (segs.map Prod.fst).Nodup) (out : Out) (hbase : header ≤ out.fd.length) :
    ∃ out', segs.foldlM (writeSegment page header) out = some out' ∧
      Run page header out segs out' := by
  induction segs generalizing out with
  | nil => exact ⟨out, rfl, run_nil page header out⟩
  | cons seg segs ih =>
      rw [List.map_cons, List.nodup_cons] at hnodup
      have hlength := length_put hpos hbase seg.2.piece
      obtain ⟨out', hfold, hrun⟩ := ih (fun s hs => hsegs s (List.mem_cons_of_mem _ hs)) hnodup.2
        ⟨put page header out.fd seg.2.piece, describeSegment out.fd.length seg out.hdr,
          out.places ++ [out.fd.length]⟩
        (by simp only; omega)
      refine ⟨out', ?_, run_cons hpos hbase (hsegs seg List.mem_cons_self) hnodup.1 hrun⟩
      rw [List.foldlM_cons, writeSegment_eq hpos hpage]
      exact hfold

section Plain

variable (env : Env) (img : BootImg) (files : Files) (skipComp : Bool)

def plainSegments : List (Block × Segment) :=
  [(.kernel, kernelSegment env img files skipComp), (.ramdisk, ramdiskSegment env img files skipComp),
    (.second, restoreSegment files.second), (.extra, extraSegment env img files skipComp),
    (.recoveryDtbo, restoreSegment files.recoveryDtbo), (.dtb, restoreSegment files.dtb),
    (.signature, signatureSegment img), (.vendorRamdiskTable, {}),
    (.bootconfig, restoreSegment files.bootconfig)]

abbrev pieces : List Piece := (plainSegments env img files skipComp).map fun seg => seg.2.piece

theorem mem_writtenParts {blk : Block} (hsignature : blk ≠ .signature)
    (htable : blk ≠ .vendorRamdiskTable) : .field blk.sizeField ∈ writtenParts := by
  cases blk with
  | signature => exact absurd rfl hsignature
  | vendorRamdiskTable => exact absurd rfl htable
  | _ => decide

theorem signatureSegment_size : (signatureSegment img).size = none := by
  rw [signatureSegment]
  split <;> rfl

variable {env img files skipComp}

theorem segments_eq (htable : img.raw.get .vendorRamdiskTableSize = 0) :
    segments env img files skipComp = some (plainSegments env img files skipComp) := by
  rw [segments, ramdiskSegments, if_neg (not_not.2 htable)]
  rfl

theorem segments_eq_some (hsegs : segments env img files skipComp = some segs) :
    ∃ ramdisk table, table.size = none ∧
      segs = [(.kernel, kernelSegment env img files skipComp), (.ramdisk, ramdisk),
        (.second, restoreSegment files.second), (.extra, extraSegment env img files skipComp),
        (.recoveryDtbo, restoreSegment files.recoveryDtbo), (.dtb, restoreSegment files.dtb),
        (.signature, signatureSegment img), (.vendorRamdiskTable, table),
        (.bootconfig, restoreSegment files.bootconfig)] := by
  simp only [segments, Option.bind_eq_bind, Option.bind_eq_some_iff, Option.pure_def,
    Option.some.injEq] at hsegs
  obtain ⟨⟨ramdisk, table⟩, hramdisk, rfl⟩ := hsegs
  refine ⟨ramdisk, table, ?_, rfl⟩
  rw [ramdiskSegments] at hramdisk
  split at hramdisk
  · simp only [Option.bind_eq_bind, Option.bind_eq_some_iff, Option.pure_def, Option.some.injEq,
      Prod.mk.injEq] at hramdisk
    obtain ⟨entries, -, ⟨payloads, entries'⟩, -, -, rfl⟩ := hramdisk
    split <;> rfl
  · cases hramdisk
    rfl

theorem settable_segments (hsegs : segments env img files skipComp = some segs) :
    segs.map Prod.fst = Block.all ∧ ∀ seg ∈ segs, Settable seg := by
  obtain ⟨ramdisk, table, hnone, rfl⟩ := segments_eq_some hsegs
  refine ⟨rfl, fun seg hseg => ?_⟩
  simp only [List.mem_cons, List.not_mem_nil, or_false] at hseg
  rcases hseg with rfl | rfl | rfl | rfl | rfl | rfl | rfl | rfl | rfl
  case inr.inr.inr.inr.inr.inr.inl => exact .inl (signatureSegment_size img)
  case inr.inr.inr.inr.inr.inr.inr.inl => exact .inl hnone
  all_goals exact .inr (mem_writtenParts nofun nofun)

def keptSize (h : Header) : Block → Nat
  | .extra => h.get .extraSize
  | .recoveryDtbo => h.get .recoveryDtboSize
  | .signature => h.get .signatureSize
  | .vendorRamdiskTable => h.get .vendorRamdiskTableSize
  | _ => 0

theorem sameOutside_hdr : img.raw.SameOutside writtenParts img.hdr :=
  (Header.SameOutside.set img.raw (by decide) _).trans (Header.SameOutside.set _ (by decide) _)

theorem sameOutside_resetSizes (h : Header) : h.SameOutside writtenParts (resetSizes h) := by
  have hset : ∀ (h : Header) {f : Field}, .field f ∈ writtenParts →
      h.SameOutside writtenParts (h.set f 0) := fun h _ hf => Header.SameOutside.set h hf 0
  exact ((((hset h (by decide)).trans (hset _ (by decide))).trans (hset _ (by decide))).trans
    (hset _ (by decide))).trans (hset _ (by decide))

theorem sameOutside_newHdr : img.raw.SameOutside writtenParts (newHdr env img files) := by
  have hreset := sameOutside_hdr.trans (sameOutside_resetSizes img.hdr)
  rw [newHdr]
  split
  · exact hreset.trans ((sameOutside_loadHdrFile _ _ _).mono (by decide))
  · exact hreset

theorem get_set (h : Header) (f g : Field) (n : Nat) :
    (h.set f n).get g
      = if f = g then if (h.kind.offset f).isSome then n % 256 ^ f.width else 0 else h.get g := by
  by_cases hfg : f = g
  · subst hfg
    cases hoff : h.kind.offset f with
    | none => simp [h.set_eq_self hoff, get_eq_zero hoff]
    | some off => simp [get_set_self hoff]
  · rw [if_neg hfg, get_set_ne hfg]

theorem get_resetSizes (blk : Block) :
    (resetSizes img.hdr).get blk.sizeField = keptSize img.raw blk := by
  cases blk <;> simp [resetSizes, BootImg.hdr, Block.sizeField, keptSize, get_set]

theorem get_newHdr (blk : Block) :
    (newHdr env img files).get blk.sizeField = keptSize img.raw blk := by
  rw [newHdr]
  split
  · rw [(sameOutside_loadHdrFile _ _ _).get, get_resetSizes]
    cases blk <;> decide
  · exact get_resetSizes blk

variable (env img files) in
/-- What the writing pass has done when it ends: wrapper and header page, the segments, trailer and
padding. -/
structure WroteSegments (segs : List (Block × Segment)) (w : Written) : Prop where
  header : w.header = (wrapper img).length
  run : Run img.raw.pageSize w.header
    ⟨wrapper img ++ slice img.mem img.addr img.raw.space, newHdr env img files, []⟩ segs w.out
  tail : w.tail = (w.out.fd ++ trailer img).length
  data : ∃ vbmeta, w.data = padToSource img (w.out.fd ++ trailer img
      ++ zeros (roundUp img.raw.pageSize (w.tail - w.header) - (w.tail - w.header)) ++ vbmeta) ∧
    (img.vbmeta = none → vbmeta = [])

/-- The writing pass ends for every page size below 2 GiB. -/
theorem writeImg_segments
    (hsegs : segments env img files skipComp = some segs) (hpos : 0 < img.raw.pageSize)
    (hpage : img.raw.pageSize < 2 ^ 31) :
    ∃ w, writeImg env img files skipComp = some w ∧ WroteSegments env img files segs w := by
  obtain ⟨hall, hsettable⟩ := settable_segments hsegs
  have hspace : (newHdr env img files).hdrSpace = some img.raw.space := by
    rw [sameOutside_newHdr.hdrSpace (by decide), hdrSpace_eq hpos hpage]
  obtain ⟨out, hfold, hrun⟩ := foldlM_writeSegment hpos hpage segs hsettable
    (by rw [hall]; decide)
    ⟨wrapper img ++ slice img.mem img.addr img.raw.space, newHdr env img files, []⟩
    (show (wrapper img).length ≤ _ by simp)
  have hvbmeta : ∀ fd, ∃ vbmeta off, writeVbmeta img (wrapper img).length fd = some (fd ++ vbmeta, off) ∧
      (img.vbmeta = none → vbmeta = []) := by
    intro fd
    rw [writeVbmeta]
    cases hv : img.vbmeta with
    | none => exact ⟨[], 0, by simp, fun _ => rfl⟩
    | some vbmeta =>
        rw [fileAlignWith_eq (by decide) (by decide)]
        exact ⟨_, _, by simp only [Option.bind_eq_bind, Option.bind_some, List.append_assoc]; rfl,
          nofun⟩
  obtain ⟨vbmeta, off, hwrite, hnone⟩ := hvbmeta (out.fd ++ trailer img
    ++ zeros (roundUp img.raw.pageSize ((out.fd ++ trailer img).length - (wrapper img).length)
      - ((out.fd ++ trailer img).length - (wrapper img).length)))
  refine ⟨⟨(wrapper img).length, out, (out.fd ++ trailer img).length, off, padToSource img
      (out.fd ++ trailer img
        ++ zeros (roundUp img.raw.pageSize ((out.fd ++ trailer img).length - (wrapper img).length)
          - ((out.fd ++ trailer img).length - (wrapper img).length)) ++ vbmeta)⟩,
    ?_, rfl, hrun, rfl, vbmeta, rfl, hnone⟩
  simp only [writeImg, hspace, hsegs, hfold, fileAlignWith_eq hpos hpage, hwrite,
    Option.bind_eq_bind, Option.bind_some]
  rfl

variable (env img files skipComp) in
abbrev Wrote (w : Written) : Prop := WroteSegments env img files (plainSegments env img files skipComp) w

theorem writeImg_wrote (htable : img.raw.get .vendorRamdiskTableSize = 0) (hpos : 0 < img.raw.pageSize)
    (hpage : img.raw.pageSize < 2 ^ 31) :
    ∃ w, writeImg env img files skipComp = some w ∧ Wrote env img files skipComp w :=
  writeImg_segments (segments_eq htable) hpos hpage

theorem pageSize_lt_of_writeImg (hwrite : writeImg env img files skipComp = some w) :
    img.raw.pageSize < 2 ^ 31 := by
  by_contra hpage
  have halign : ∀ header fd, fileAlignWith img.raw.pageSize header fd = none := by
    intro header fd
    rw [fileAlignWith, if_neg (fun h => hpage h.2)]
  simp only [writeImg, Option.bind_eq_bind, Option.bind_eq_some_iff] at hwrite
  obtain ⟨space, -, segs, hsegs, out, hfold, -⟩ := hwrite
  obtain ⟨ramdisk, table, -, rfl⟩ := segments_eq_some hsegs
  rw [List.foldlM_cons] at hfold
  simp [writeSegment, kernelSegment, halign] at hfold

theorem wroteSegments_of_writeImg (hpos : 0 < img.raw.pageSize)
    (hwrite : writeImg env img files skipComp = some w) :
    ∃ segs, segments env img files skipComp = some segs ∧ WroteSegments env img files segs w := by
  obtain ⟨segs, hsegs⟩ : ∃ segs, segments env img files skipComp = some segs := by
    have hwrite' := hwrite
    simp only [writeImg, Option.bind_eq_bind, Option.bind_eq_some_iff] at hwrite'
    obtain ⟨space, -, segs, hsegs, -⟩ := hwrite'
    exact ⟨segs, hsegs⟩
  obtain ⟨w', hwrite', hwrote⟩ := writeImg_segments hsegs hpos (pageSize_lt_of_writeImg hwrite)
  rw [hwrite, Option.some.injEq] at hwrite'
  subst hwrite'
  exact ⟨segs, hsegs, hwrote⟩

def mtkOf (img : BootImg) : Block → Bool
  | .kernel => img.kernel.mtk
  | .ramdisk => img.ramdisk.mtk
  | _ => false

theorem snd_patchMtk (w : Written) (mtk : Bool) (blk : Block) (s : List UInt8 × Header) :
    (patchMtk w mtk blk s).2
      = s.2.setSize blk (if mtk then some (s.2.get blk.sizeField + mtkHdrSize) else none) := by
  cases mtk <;> rfl

theorem sameOutside_setSize (h : Header) (blk : Block) (hblk : .field blk.sizeField ∈ writtenParts)
    (size : Option Nat) : h.SameOutside writtenParts (h.setSize blk size) := by
  cases size with
  | none => exact .refl _ h
  | some n => exact Header.SameOutside.set h hblk n

theorem sameOutside_updateId (w : Written) (data : List UInt8) (h : Header) :
    h.SameOutside [.text .id] (updateId env img w data h) :=
  (Header.SameOutside.setText h (by decide) _).trans (Header.SameOutside.setText _ (by decide) _)

theorem sameOutside_patched (w : Written) :
    w.out.hdr.SameOutside writtenParts (patched env img files skipComp w).2 := by
  simp only [patched, snd_patchMtk]
  have hkernel := sameOutside_setSize w.out.hdr .kernel (by decide)
    (if img.kernel.mtk then some (w.out.hdr.get Block.kernel.sizeField + mtkHdrSize) else none)
  exact ((hkernel.trans (sameOutside_setSize _ .ramdisk (by decide) _)).trans
    (Header.SameOutside.set _ (by decide) _)).trans
    ((sameOutside_updateId _ _ _).mono (by decide))

theorem get_patched (w : Written) (blk : Block) :
    (patched env img files skipComp w).2.get blk.sizeField
      = newSize w.out.hdr blk.sizeField
          (if mtkOf img blk then some (w.out.hdr.get blk.sizeField + mtkHdrSize) else none) := by
  have hid : Part.field blk.sizeField ∉ [Part.text .id] := by simp
  have hheaderSize : Field.headerSize ≠ blk.sizeField := by cases blk <;> decide
  simp only [patched, snd_patchMtk, (sameOutside_updateId _ _ _).get hid,
    get_set_ne hheaderSize]
  by_cases hkernel : blk = .kernel
  · subst hkernel
    rw [get_setSize_ne _ (by decide), get_setSize_self]
    rfl
  · by_cases hramdisk : blk = .ramdisk
    · subst hramdisk
      have hget := get_setSize_ne w.out.hdr hkernel
        (if img.kernel.mtk then some (w.out.hdr.get Block.kernel.sizeField + mtkHdrSize) else none)
      rw [get_setSize_self, hget]
      exact newSize_congr (sameOutside_setSize _ .kernel (by decide) _).1 hget _
    · have hmtk : mtkOf img blk = false := by
        cases blk with
        | kernel => exact absurd rfl hkernel
        | ramdisk => exact absurd rfl hramdisk
        | _ => rfl
      rw [get_setSize_ne _ hramdisk, get_setSize_ne _ hkernel, hmtk]
      rfl

/-- The size that the final header has for a segment, with the MTK header in front of it. -/
def describedSize (img : BootImg) (seg : Block × Segment) : Nat :=
  let hasField := (img.raw.kind.offset seg.1.sizeField).isSome
  let size :=
    match seg.2.size with
    | some n => if hasField then n % 2 ^ 32 else 0
    | none => keptSize img.raw seg.1
  if mtkOf img seg.1 then if hasField then (size + mtkHdrSize) % 2 ^ 32 else 0 else size

theorem describedSize_recoveryDtbo_none (img : BootImg) :
    describedSize img (.recoveryDtbo, restoreSegment none) = img.raw.get .recoveryDtboSize := rfl

/-- The header of the output describes each segment with its size. -/
theorem get_final_of_mem (hwrote : WroteSegments env img files segs w) (hseg : seg ∈ segs) :
    (patched env img files skipComp w).2.get seg.1.sizeField = describedSize img seg := by
  have hnew : img.raw.SameOutside writtenParts (newHdr env img files) := sameOutside_newHdr
  have hkind : w.out.hdr.kind = img.raw.kind := hwrote.run.hdr.1.trans hnew.1
  have hsize : w.out.hdr.get seg.1.sizeField
      = match seg.2.size with
        | some n => if (img.raw.kind.offset seg.1.sizeField).isSome then n % 2 ^ 32 else 0
        | none => keptSize img.raw seg.1 := by
    rw [hwrote.run.size_of_mem seg hseg]
    cases seg.2.size with
    | none => exact get_newHdr _
    | some n => rw [newSize, sameOutside_newHdr.1]
  rw [get_patched, describedSize, ← hsize]
  cases mtkOf img seg.1 with
  | false => rfl
  | true =>
      simp only [if_true, newSize, hkind]

theorem prefix_padToSource (fd : List UInt8) : fd <+: padToSource img fd := by
  rw [padToSource]
  split
  · exact List.prefix_refl _
  · exact List.prefix_append _ _

namespace WroteSegments

variable {w : Written} {segs : List (Block × Segment)}
  (hwrote : WroteSegments env img files segs w)

include hwrote

theorem prefix_data : w.out.fd ++ trailer img <+: w.data := by
  obtain ⟨vbmeta, hdata, -⟩ := hwrote.data
  rw [hdata]
  refine List.IsPrefix.trans ?_ (prefix_padToSource _)
  rw [List.append_assoc]
  exact List.prefix_append _ _

theorem prefix_fd : w.out.fd <+: w.data := (List.prefix_append _ _).trans hwrote.prefix_data

variable (hspace : img.addr + img.raw.space ≤ img.mem.length)

include hspace

theorem length_page :
    (wrapper img ++ slice img.mem img.addr img.raw.space).length = w.header + img.raw.space := by
  rw [List.length_append, length_slice_of_le hspace, hwrote.header]

theorem space_le_fd : w.header + img.raw.space ≤ w.out.fd.length := by
  rw [← hwrote.length_page hspace, hwrote.run.fd]
  exact (prefix_foldl_put _ _ _).length_le

theorem space_le_tail : w.header + img.raw.space ≤ w.tail := by
  have hle := hwrote.space_le_fd hspace
  rw [hwrote.tail, List.length_append]
  omega

theorem length_le : w.header + img.raw.space ≤ w.data.length :=
  (hwrote.space_le_fd hspace).trans hwrote.prefix_fd.length_le

theorem places_eq :
    w.out.places = (places img.raw.pageSize img.raw.space (segs.map fun seg => seg.2.piece)).map
      (w.header + ·) := by
  have hplaces := hwrote.run.places
  rw [hwrote.length_page hspace, Nat.add_sub_cancel_left, List.nil_append] at hplaces
  exact hplaces

theorem length_fd (hpos : 0 < img.raw.pageSize) :
    w.out.fd.length
      = w.header + (segs.map fun seg => seg.2.piece).foldl (next img.raw.pageSize) img.raw.space := by
  have hlength := hwrote.length_page hspace
  have hbase : w.header ≤ (wrapper img ++ slice img.mem img.addr img.raw.space).length := by omega
  rw [hwrote.run.fd, length_foldl_put_eq hpos hbase, hlength, Nat.add_sub_cancel_left]

/-- Every segment stands in the file at the place noted for it. -/
theorem contents (hpos : 0 < img.raw.pageSize) :
    List.Forall₂ (fun o x => w.header + o + x.bytes.length ≤ w.out.fd.length ∧
        slice w.data (w.header + o) x.bytes.length = x.bytes)
      (places img.raw.pageSize img.raw.space (segs.map fun seg => seg.2.piece))
      (segs.map fun seg => seg.2.piece) := by
  have hlength := hwrote.length_page hspace
  have hbase : w.header ≤ (wrapper img ++ slice img.mem img.addr img.raw.space).length := by
    rw [hlength]
    exact Nat.le_add_right _ _
  have hput := slice_foldl_put hpos hbase (segs.map fun seg => seg.2.piece)
  rw [hlength, Nat.add_sub_cancel_left] at hput
  refine hput.imp ?_
  intro o x hx
  have hfd := hwrote.run.fd
  rw [← hfd] at hx
  exact ⟨hx.1, by rw [slice_of_isPrefix hwrote.prefix_fd hx.1, hx.2]⟩

end WroteSegments

theorem length_patchMtk (w : Written) (mtk : Bool) (blk : Block) (s : List UInt8 × Header) :
    (patchMtk w mtk blk s).1.length = s.1.length := by
  cases mtk with
  | false => rfl
  | true => exact length_patch _ _ _

theorem length_patchStub (w : Written) (data : List UInt8) :
    (patchStub env img files skipComp w data).length = data.length := by
  rw [patchStub]
  split
  · simp only
    split
    · exact length_patch _ _ _
    · rfl
  · rfl

theorem length_patched (w : Written) :
    (patched env img files skipComp w).1.length = w.data.length := by
  simp only [patched, length_patchStub, length_patchMtk]

theorem withHeader_eq (hamonet : img.flags.amonet = false) (w : Written) :
    withHeader env img files skipComp w = patch (patched env img files skipComp w).1 w.header
      (patched env img files skipComp w).2.raw := by
  rw [withHeader, copyHeader, hamonet, if_neg Bool.false_ne_true]

end Plain

end MagiskNative.Boot
