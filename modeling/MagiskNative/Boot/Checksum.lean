import MagiskNative.Boot.CommandLine
import MagiskNative.Boot.KernelFrame

/-!
# The id of a repacked image

`repack` hashes the blocks at the offsets it has noted while it wrote them, with the sizes that it puts
into the header. A reader has the header only, and finds the same bytes if every block takes the room
that the header has for it.
-/

namespace MagiskNative.Boot

open Bytes Layout Header

variable {off : Nat} {h : Header} {img : BootImg}

def digest (env : Env) (img : BootImg) (data : List UInt8) : List UInt8 :=
  if img.flags.sha256 then env.sha256 data else env.sha1 data

namespace Header

def sizedBlock (h : Header) (out : List UInt8) (base : Nat) (blk : Block) : List UInt8 :=
  slice out (base + h.blockOff blk) (h.get blk.sizeField) ++ leBytes 4 (h.get blk.sizeField)

def idInput (h : Header) (out : List UInt8) (base : Nat) : List UInt8 :=
  let sized := h.sizedBlock out base
  let ver := h.get .headerVersion
  sized .kernel ++ sized .ramdisk ++ sized .second
    ++ (if h.get .extraSize ≠ 0 then sized .extra else [])
    ++ (if ver = 1 ∨ ver = 2 then sized .recoveryDtbo else [])
    ++ (if ver = 2 then sized .dtb else [])

end Header

def headerShift (img : BootImg) : Nat := if img.flags.amonet then amonetMicroloaderSz else 0

def copiedSize (img : BootImg) : Nat :=
  if img.flags.amonet then min (img.raw.space - amonetMicroloaderSz) img.raw.hdrSize
  else img.raw.hdrSize

def storedHdr (img : BootImg) (out : List UInt8) : Option Header :=
  readHeader out ((wrapper img).length + headerShift img) img.raw.kind (copiedSize img)

/-- The id in the header of the output is the digest over the blocks that this header delimits. -/
def IdMatches (env : Env) (img : BootImg) (out : List UInt8) : Prop :=
  ∃ h, storedHdr img out = some h ∧
    h.text .id = (digest env img (h.idInput out (wrapper img).length) ++ zeros 32).take 32

namespace Header

variable {h : Header} {n : Nat}

theorem cut_self (h : Header) : h.cut h.kind.hdrSize = h := by
  obtain ⟨k, raw, hlength⟩ := h
  rw [cut, Header.mk.injEq]
  refine ⟨rfl, ?_⟩
  rw [Nat.sub_self, List.take_of_length_le (Nat.le_of_eq hlength)]
  exact List.append_nil raw

theorem slice_cut {k : Nat} (hle : off + k ≤ n) (hn : n ≤ h.kind.hdrSize) :
    slice (h.cut n).raw off k = slice h.raw off k := by
  have hlength : (h.raw.take n).length = n := by
    rw [List.length_take, h.length_raw]
    omega
  rw [cut, slice_append_left (by omega), slice_take hle]

theorem get_cut_of_kept {f : Field}
    (hkept : h.get f = 0 ∨ ∀ off, h.kind.offset f = some off → off + f.width ≤ n) :
    (h.cut n).get f = h.get f := by
  cases hoff : h.kind.offset f with
  | none => rw [get_eq_zero hoff, get_eq_zero ((congrArg (Kind.offset · f) (h.kind_cut n)).trans hoff)]
  | some off =>
      rw [h.get_cut hoff]
      rcases hkept with hzero | hle
      · rw [hzero, Nat.zero_mod]
      · have hwidth := hle off hoff
        exact Nat.mod_eq_of_lt (lt_of_lt_of_le (h.get_lt f)
          (Nat.pow_le_pow_right (by decide) (by omega)))

theorem text_cut {t : TextField} (hn : n ≤ h.kind.hdrSize)
    (hkept : ∀ off k, h.kind.array t = some (off, k) → off + k ≤ n) :
    (h.cut n).text t = h.text t := by
  rw [text, text, show (h.cut n).kind = h.kind from rfl]
  cases harray : h.kind.array t with
  | none => rfl
  | some r => exact slice_cut (hkept r.1 r.2 harray) hn

end Header

theorem readHeader_cut {out : List UInt8} {addr n : Nat} (hn : n ≤ h.kind.hdrSize)
    (hle : addr + n ≤ out.length) (hslice : slice out addr n = h.raw.take n) :
    readHeader out addr h.kind n = some (h.cut n) := by
  rw [readHeader, dif_pos ⟨hn, hle⟩, Option.some.injEq, Header.mk.injEq]
  exact ⟨rfl, by rw [hslice]; rfl⟩

def hashedBlocks : List Block := [.kernel, .ramdisk, .second, .extra, .recoveryDtbo, .dtb]

section Places

variable {env : Env} {img : BootImg} {files : Files} {skipComp : Bool} {w : Written}
  (hwrote : Wrote env img files skipComp w) (hpos : 0 < img.raw.pageSize)
  (hexact : ∀ blk ∈ hashedBlocks.dropLast, Exact env img files skipComp blk)

include hwrote hpos hexact

theorem take_places_hashed :
    (places img.raw.pageSize img.raw.space (pieces env img files skipComp)).take 6
      = (starts img.raw.space ((finalHdr env img files skipComp w).sizes.map
          (roundUp img.raw.pageSize))).take 6 := by
  have hlength : (pieces env img files skipComp).length
      = (finalHdr env img files skipComp w).sizes.length := rfl
  apply take_places_eq hpos (dvd_space _) hlength
  rw [pieces, plainSegments_eq, List.map_map, Header.sizes, ← List.map_take, ← List.map_take,
    List.forall₂_map_left_iff, List.forall₂_map_right_iff, List.forall₂_same]
  intro blk hblk
  obtain ⟨hsize, hkeeps⟩ := hexact blk hblk
  rw [finalHdr_get hwrote, hsize]
  exact Segment.KeepsPages.room hkeeps hpos

variable {blk : Block}

theorem getElem?_places_hashed (hblk : blk ∈ hashedBlocks) :
    (places img.raw.pageSize img.raw.space (pieces env img files skipComp))[Block.all.idxOf blk]?
      = some ((finalHdr env img files skipComp w).blockOff blk) := by
  have hlt : Block.all.idxOf blk < 6 := by
    revert hblk
    cases blk <;> decide
  have htake := congrArg (·[Block.all.idxOf blk]?)
    (take_places_hashed hwrote hpos hexact)
  simp only [List.getElem?_take_of_lt hlt] at htake
  rw [htake, Header.blockOff, finalHdr_pageSize hwrote, finalHdr_space hwrote,
    List.getD_eq_getElem?_getD]
  cases blk <;> rfl

omit hexact in
theorem Wrote.segment_end_le (hspace : img.addr + img.raw.space ≤ img.mem.length) {o : Nat}
    (hplace : (places img.raw.pageSize img.raw.space
      (pieces env img files skipComp))[Block.all.idxOf blk]? = some o) :
    w.header + o + (segmentOf env img files skipComp blk).bytes.length ≤ w.out.fd.length := by
  have hpiece : (pieces env img files skipComp)[Block.all.idxOf blk]?
      = some (segmentOf env img files skipComp blk).piece := by
    cases blk <;> rfl
  obtain ⟨hi, hget⟩ := List.getElem?_eq_some_iff.1 hplace
  obtain ⟨hj, hget'⟩ := List.getElem?_eq_some_iff.1 hpiece
  have hle := ((hwrote.contents hspace hpos).get hi hj).1
  simp only [List.get_eq_getElem] at hle
  rw [hget, hget'] at hle
  exact hle

theorem place_hashed (hspace : img.addr + img.raw.space ≤ img.mem.length)
    (hblk : blk ∈ hashedBlocks) :
    w.out.places[Block.all.idxOf blk]?
        = some (w.header + (finalHdr env img files skipComp w).blockOff blk) ∧
      w.header + (finalHdr env img files skipComp w).blockOff blk
        + (segmentOf env img files skipComp blk).bytes.length ≤ w.out.fd.length := by
  have hplace := getElem?_places_hashed hwrote hpos hexact hblk
  refine ⟨?_, hwrote.segment_end_le hpos hspace hplace⟩
  rw [hwrote.places_eq hspace, List.getElem?_map, hplace]
  rfl

end Places

section Offset

variable {page header : Nat} {out out' : Out}

theorem kind_setSize (h : Header) (blk : Block) (size : Option Nat) :
    (h.setSize blk size).kind = h.kind := by
  cases size with
  | none => rfl
  | some n => exact h.kind_set _ _

theorem kind_describeSegment (pos : Nat) (seg : Block × Segment) (h : Header) :
    (describeSegment pos seg h).kind = h.kind := by
  rw [describeSegment]
  split
  · rw [kind_set, kind_setSize]
  · exact kind_setSize _ _ _

theorem get_setSize_offset (h : Header) (blk : Block) (size : Option Nat) :
    (h.setSize blk size).get .recoveryDtboOffset = h.get .recoveryDtboOffset := by
  cases size with
  | none => rfl
  | some n => exact get_set_ne (sizeField_ne_offset blk) n

theorem foldlM_writeSegment_out {segs : List (Block × Segment)}
    (hfold : segs.foldlM (writeSegment page header) out = some out') :
    (∃ more, out'.places = out.places ++ more ∧ more.length = segs.length) ∧
      out'.hdr.kind = out.hdr.kind ∧
      (.recoveryDtbo ∉ segs.map Prod.fst →
        out'.hdr.get .recoveryDtboOffset = out.hdr.get .recoveryDtboOffset) := by
  induction segs generalizing out with
  | nil =>
      cases hfold
      exact ⟨⟨[], (List.append_nil _).symm, rfl⟩, rfl, fun _ => rfl⟩
  | cons seg segs ih =>
      rw [List.foldlM_cons, Option.bind_eq_bind, Option.bind_eq_some_iff] at hfold
      obtain ⟨mid, hmid, hfold⟩ := hfold
      obtain ⟨hhdr, hplaces⟩ := writeSegment_out hmid
      obtain ⟨⟨more, hmore, hlength⟩, hkind, hoffset⟩ := ih hfold
      refine ⟨⟨out.fd.length :: more, ?_, by rw [List.length_cons, List.length_cons, hlength]⟩, ?_, ?_⟩
      · rw [hmore, hplaces, List.append_assoc]
        rfl
      · rw [hkind, hhdr, kind_describeSegment]
      · intro hnot
        rw [List.map_cons, List.mem_cons, not_or] at hnot
        rw [hoffset hnot.2, hhdr, describeSegment, if_neg (fun h => hnot.1 h.1.symm),
          get_setSize_offset]

theorem recoveryDtboOffset_foldlM (before behind : List (Block × Segment)) {seg : Segment}
    (haligned : seg.aligned = true)
    (hoff : out.hdr.kind.offset .recoveryDtboOffset = some off)
    (hbehind : .recoveryDtbo ∉ behind.map Prod.fst)
    (hfold : (before ++ (.recoveryDtbo, seg) :: behind).foldlM (writeSegment page header) out
      = some out') :
    ∃ pos, out'.places[out.places.length + before.length]? = some pos ∧
      out'.hdr.get .recoveryDtboOffset = pos % 2 ^ 64 := by
  rw [List.foldlM_append, Option.bind_eq_bind, Option.bind_eq_some_iff] at hfold
  obtain ⟨mid, hmid, hfold⟩ := hfold
  rw [List.foldlM_cons, Option.bind_eq_bind, Option.bind_eq_some_iff] at hfold
  obtain ⟨mid', hmid', hfold⟩ := hfold
  obtain ⟨⟨more, hmore, hlength⟩, hkind, -⟩ := foldlM_writeSegment_out hmid
  obtain ⟨hhdr, hplaces⟩ := writeSegment_out hmid'
  obtain ⟨⟨more', hmore', -⟩, -, hoffset⟩ := foldlM_writeSegment_out hfold
  refine ⟨mid.fd.length, ?_, ?_⟩
  · have hindex : (out.places ++ more).length = out.places.length + before.length := by
      rw [List.length_append, hlength]
    rw [hmore', hplaces, hmore, ← hindex, List.append_assoc, List.getElem?_append_right le_rfl,
      Nat.sub_self]
    rfl
  · have hset : ∀ h : Header, h.kind = out.hdr.kind →
        (h.set .recoveryDtboOffset mid.fd.length).get .recoveryDtboOffset
          = mid.fd.length % 2 ^ 64 := by
      intro h hh
      rw [get_set_self (hh ▸ hoff)]
      rfl
    rw [hoffset hbehind, hhdr, describeSegment, if_pos ⟨rfl, haligned⟩]
    exact hset _ ((kind_setSize _ _ _).trans hkind)

variable {env : Env} {img : BootImg} {files : Files} {skipComp : Bool} {w : Written}

theorem recoveryDtboOffset_out (hwrite : writeImg env img files skipComp = some w)
    (htable : img.raw.get .vendorRamdiskTableSize = 0) {m : List UInt8}
    (hfile : files.recoveryDtbo = some m)
    (hoff : img.raw.kind.offset .recoveryDtboOffset = some off) :
    ∃ pos, w.out.places[4]? = some pos ∧ w.out.hdr.get .recoveryDtboOffset = pos % 2 ^ 64 := by
  simp only [writeImg, segments_eq htable, Option.bind_eq_bind, Option.bind_eq_some_iff,
    Option.some.injEq] at hwrite
  obtain ⟨space, -, segs, rfl, out, hfold, fd, -, ⟨fd', off'⟩, -, hw⟩ := hwrite
  cases hw
  have hkind : (newHdr env img files).kind = img.raw.kind := sameOutside_newHdr.1
  have haligned : (restoreSegment files.recoveryDtbo).aligned = true := by
    rw [hfile]
    rfl
  exact recoveryDtboOffset_foldlM [(.kernel, _), (.ramdisk, _), (.second, _), (.extra, _)]
    [(.dtb, _), (.signature, _), (.vendorRamdiskTable, _), (.bootconfig, _)] haligned (hkind ▸ hoff)
    (by simp) hfold

theorem recoveryDtboOffset_final :
    (finalHdr env img files skipComp w).get .recoveryDtboOffset
      = w.out.hdr.get .recoveryDtboOffset := by
  simp only [finalHdr, patched, snd_patchMtk]
  rw [(sameOutside_updateId _ _ _).get (by simp), get_set_ne (by decide), get_setSize_offset,
    get_setSize_offset]

end Offset

section Digest

variable {env : Env} {img : BootImg} {files : Files} {skipComp : Bool} {w : Written}

theorem text_updateId (w : Written) (data : List UInt8) (hid : (h.kind.textOffset .id).isSome) :
    (updateId env img w data h).text .id
      = (digest env img (shaInput w data h) ++ zeros 32).take 32 := by
  have hsome : (h.kind.array .id).isSome := by rwa [Kind.array, Option.isSome_map]
  have hroom : (h.text .id).length = 32 := by
    obtain ⟨⟨off, n⟩, harray⟩ := Option.isSome_iff_exists.1 hsome
    rw [Header.length_text harray]
    rw [Kind.array, Option.map_eq_some_iff] at harray
    obtain ⟨_, -, harray⟩ := harray
    rw [← (Prod.mk.inj harray).2]
    cases h.kind <;> rfl
  have hdrop : (h.text .id).drop TextField.id.width = [] :=
    List.drop_of_length_le (Nat.le_of_eq hroom)
  have hclear : (h.setText .id (zeros TextField.id.width)).text .id = zeros 32 := by
    rw [text_clear hsome, hdrop, List.append_nil]
    rfl
  have htake : ∀ (h : Header) new, h.setText .id new = h.setText .id (new.take 32) := by
    intro h new
    rw [Header.setText, Header.setText, List.take_take]
    rfl
  have hlength : ((digest env img (shaInput w data h)).take 32).length ≤ 32 := by
    rw [List.length_take]
    exact Nat.min_le_left _ _
  change ((h.setText .id (zeros TextField.id.width)).setText .id
    (digest env img (shaInput w data h))).text .id = _
  rw [htake _ (digest _ _ _), text_setText_self (by rwa [kind_setText]) hlength, hclear,
    List.take_append, List.length_take, zeros, List.drop_replicate, List.take_replicate]
  congr 2
  omega

theorem text_final (hid : (img.raw.kind.textOffset .id).isSome)
    (hwrote : Wrote env img files skipComp w) :
    (finalHdr env img files skipComp w).text .id
      = (digest env img (shaInput w (patched env img files skipComp w).1
          (finalHdr env img files skipComp w)) ++ zeros 32).take 32 := by
  obtain ⟨h, hfinal⟩ : ∃ h, finalHdr env img files skipComp w
      = updateId env img w (patched env img files skipComp w).1 h := ⟨_, rfl⟩
  have hsame : h.SameOutside [.text .id]
      (updateId env img w (patched env img files skipComp w).1 h) := sameOutside_updateId _ _ _
  have hget : ∀ f, (finalHdr env img files skipComp w).get f = h.get f := by
    intro f
    rw [hfinal, hsame.get (by simp)]
  have hinput : shaInput w (patched env img files skipComp w).1 (finalHdr env img files skipComp w)
      = shaInput w (patched env img files skipComp w).1 h := by
    simp only [shaInput, hget]
  have hkind : h.kind = img.raw.kind := by
    rw [← finalHdr_kind hwrote, hfinal, hsame.1]
  rw [hinput, hfinal, text_updateId _ _ (hkind ▸ hid)]

variable (hwrite : writeImg env img files skipComp = some w)
  (hwrote : Wrote env img files skipComp w) (htable : img.raw.get .vendorRamdiskTableSize = 0)
  (hpos : 0 < img.raw.pageSize) (hspace : img.addr + img.raw.space ≤ img.mem.length)
  (hexact : ∀ blk ∈ hashedBlocks.dropLast, Exact env img files skipComp blk)
  (hdtb : (finalHdr env img files skipComp w).get .dtbSize
    ≤ (segmentOf env img files skipComp .dtb).bytes.length)
  (hplaces : ∀ blk ∈ hashedBlocks, (finalHdr env img files skipComp w).get blk.sizeField ≠ 0 →
    w.header + (finalHdr env img files skipComp w).blockOff blk < 2 ^ 32) {out : List UInt8}
  (hframe : ∀ off n, w.header + img.raw.space ≤ off → off + n ≤ w.tail →
    slice out off n = slice (patched env img files skipComp w).1 off n)

include hwrote hpos hspace hexact hdtb

variable {blk : Block}

theorem hashed_end_le (hblk : blk ∈ hashedBlocks) :
    w.header + (finalHdr env img files skipComp w).blockOff blk
      + (finalHdr env img files skipComp w).get blk.sizeField ≤ w.tail := by
  have hle := (place_hashed hwrote hpos hexact hspace hblk).2
  have htail := hwrote.tail
  rw [List.length_append] at htail
  have hsize : (finalHdr env img files skipComp w).get blk.sizeField
      ≤ (segmentOf env img files skipComp blk).bytes.length := by
    by_cases hlast : blk = .dtb
    · subst hlast
      exact hdtb
    · rw [finalHdr_get hwrote, (hexact blk _).1]
      revert hblk hlast
      cases blk <;> decide
  omega

include hframe in
theorem slice_hashed (hblk : blk ∈ hashedBlocks) {place : Nat}
    (hplace : place = w.header + (finalHdr env img files skipComp w).blockOff blk) :
    slice (patched env img files skipComp w).1 place
        ((finalHdr env img files skipComp w).get blk.sizeField)
      = slice out (w.header + (finalHdr env img files skipComp w).blockOff blk)
          ((finalHdr env img files skipComp w).get blk.sizeField) := by
  have hle := hashed_end_le hwrote hpos hspace hexact hdtb hblk
  have hspace' := (finalHdr env img files skipComp w).space_le_blockOff blk
  rw [finalHdr_space hwrote] at hspace'
  rw [hplace, hframe _ _ (by omega) hle]

omit hdtb in
include hplaces in
theorem place_eq_of_lt (hblk : blk ∈ hashedBlocks)
    (hne : (finalHdr env img files skipComp w).get blk.sizeField ≠ 0) :
    w.place blk = w.header + (finalHdr env img files skipComp w).blockOff blk := by
  rw [Written.place, List.getD_eq_getElem?_getD, (place_hashed hwrote hpos hexact hspace hblk).1,
    Option.getD_some]
  exact Nat.mod_eq_of_lt (hplaces blk hblk hne)

omit hdtb in
include hwrite htable hplaces in
theorem recoveryDtboOffset_eq
    (hne : (finalHdr env img files skipComp w).get .recoveryDtboSize ≠ 0) :
    (finalHdr env img files skipComp w).get .recoveryDtboOffset
      = w.header + (finalHdr env img files skipComp w).blockOff .recoveryDtbo := by
  have hmem : Block.recoveryDtbo ∈ hashedBlocks := by decide
  have hlt := hplaces .recoveryDtbo hmem hne
  obtain ⟨m, hfile⟩ : ∃ m, files.recoveryDtbo = some m := by
    apply Option.ne_none_iff_exists'.1
    intro hnone
    have hsize := finalHdr_get hwrote .recoveryDtbo
    rw [(hexact .recoveryDtbo (by decide)).1] at hsize
    simp only [segmentOf, hnone] at hsize
    exact hne hsize
  obtain ⟨off, hoff⟩ : ∃ off, img.raw.kind.offset .recoveryDtboOffset = some off := by
    have hsome : img.raw.kind.offset .recoveryDtboSize ≠ none := by
      intro hnone
      rw [← finalHdr_kind hwrote] at hnone
      exact hne (get_eq_zero hnone)
    apply Option.ne_none_iff_exists'.1
    revert hsome
    cases img.raw.kind <;> decide
  obtain ⟨pos, hplace, hget⟩ := recoveryDtboOffset_out hwrite htable hfile hoff
  have hplace' := (place_hashed hwrote hpos hexact hspace hmem).1
  rw [show Block.all.idxOf .recoveryDtbo = 4 from rfl, hplace, Option.some.injEq] at hplace'
  rw [recoveryDtboOffset_final, hget, hplace']
  exact Nat.mod_eq_of_lt (by omega)

include hwrite htable hplaces hframe in
theorem shaInput_eq_idInput :
    shaInput w (patched env img files skipComp w).1 (finalHdr env img files skipComp w)
      = (finalHdr env img files skipComp w).idInput out w.header := by
  have hsized : ∀ blk ∈ hashedBlocks,
      slice (patched env img files skipComp w).1 (w.place blk)
          ((finalHdr env img files skipComp w).get blk.sizeField)
        = slice out (w.header + (finalHdr env img files skipComp w).blockOff blk)
            ((finalHdr env img files skipComp w).get blk.sizeField) := by
    intro blk hblk
    by_cases hzero : (finalHdr env img files skipComp w).get blk.sizeField = 0
    · rw [hzero, slice_zero, slice_zero]
    · exact slice_hashed hwrote hpos hspace hexact hdtb hframe hblk
        (place_eq_of_lt hwrote hpos hspace hexact hplaces hblk hzero)
  have hrecoveryDtbo : slice (patched env img files skipComp w).1
        ((finalHdr env img files skipComp w).get .recoveryDtboOffset)
        ((finalHdr env img files skipComp w).get Block.recoveryDtbo.sizeField)
      = slice out (w.header + (finalHdr env img files skipComp w).blockOff .recoveryDtbo)
          ((finalHdr env img files skipComp w).get Block.recoveryDtbo.sizeField) := by
    by_cases hzero : (finalHdr env img files skipComp w).get .recoveryDtboSize = 0
    · rw [Block.sizeField, hzero, slice_zero, slice_zero]
    · exact slice_hashed hwrote hpos hspace hexact hdtb hframe (by decide)
        (recoveryDtboOffset_eq hwrite hwrote htable hpos hspace hexact hplaces hzero)
  simp only [shaInput, Header.idInput, Header.sizedBlock, hrecoveryDtbo, hsized .kernel (by decide),
    hsized .ramdisk (by decide), hsized .second (by decide), hsized .extra (by decide),
    hsized .dtb (by decide)]

end Digest

theorem Header.idInput_congr {h' : Header} (hkind : h'.kind = h.kind)
    (hpage : h'.get .pageSize = h.get .pageSize)
    (hversion : h'.get .headerVersion = h.get .headerVersion)
    (hsizes : ∀ blk : Block, h'.get blk.sizeField = h.get blk.sizeField) (out : List UInt8)
    (base : Nat) : h'.idInput out base = h.idInput out base := by
  have hpage' : h'.pageSize = h.pageSize := by
    rw [Header.pageSize, Header.pageSize, hkind, hpage]
  have hspace : h'.space = h.space := by
    rw [Header.space, Header.space, hkind, hpage', Header.hdrSize, hkind, Header.hdrSize]
  have hoff : ∀ blk, h'.blockOff blk = h.blockOff blk := by
    intro blk
    simp only [Header.blockOff, Header.sizes, hspace, hpage', hsizes]
  have hextra := hsizes .extra
  simp only [Block.sizeField] at hextra
  simp only [Header.idInput, Header.sizedBlock, hoff, hsizes, hversion, hextra]

def earlyFields : List Field :=
  [.kernelSize, .ramdiskSize, .secondSize, .pageSize, .headerVersion, .extraSize]

theorem early_le {k : Kind} (hid : (k.textOffset .id).isSome) :
    (∀ f ∈ earlyFields,
      (k.offset f).all fun off => off + f.width ≤ k.hdrSize - amonetMicroloaderSz) ∧
    ((k.array .id).all fun r => r.1 + r.2 ≤ k.hdrSize - amonetMicroloaderSz) ∧
    ∀ blk ∈ [Block.signature, .vendorRamdiskTable, .bootconfig], k.offset blk.sizeField = none := by
  revert hid
  cases k <;> decide

section Stored

variable {env : Env} {img : BootImg} {files : Files} {skipComp : Bool} {w : Written}
  (hroom : img.raw.hdrSize ≤ img.raw.space)

include hroom

theorem copiedSize_bounds :
    img.raw.hdrSize - amonetMicroloaderSz ≤ copiedSize img ∧ copiedSize img ≤ img.raw.hdrSize ∧
      headerShift img + copiedSize img ≤ img.raw.space := by
  have hsize := le_hdrSize img.raw.kind
  have hmicro : amonetMicroloaderSz = 1024 := rfl
  rw [Header.hdrSize] at hroom ⊢
  rw [copiedSize, headerShift, Header.hdrSize]
  split <;> omega

theorem headerFits_of_le : HeaderFits img := by
  have hsize := le_hdrSize img.raw.kind
  have hmicro : amonetMicroloaderSz = 1024 := rfl
  rw [Header.hdrSize] at hroom
  rw [HeaderFits, Header.hdrSize]
  split <;> omega

variable (hwrote : Wrote env img files skipComp w) (hpos : 0 < img.raw.pageSize)
  (hpage : img.raw.pageSize < 2 ^ 31) (hspace : img.addr + img.raw.space ≤ img.mem.length)

include hwrote hpos hpage hspace

theorem slice_withHeader_copied :
    slice (withHeader env img files skipComp w) (w.header + headerShift img) (copiedSize img)
      = (finalHdr env img files skipComp w).raw.take (copiedSize img) := by
  have hlength := hwrote.length_le hspace
  have hraw := length_raw_finalHdr hwrote
  obtain ⟨-, hle, hfits⟩ := copiedSize_bounds hroom
  have hspaceEq : (finalHdr env img files skipComp w).hdrSpace = some img.raw.space := by
    rw [finalHdr, (sameOutside_final skipComp hwrote).hdrSpace (by decide), hdrSpace_eq hpos hpage]
  have hsizeEq : (finalHdr env img files skipComp w).hdrSize = img.raw.hdrSize := by
    rw [Header.hdrSize, finalHdr_kind hwrote, Header.hdrSize]
  have hpatch : withHeader env img files skipComp w
      = patch (patched env img files skipComp w).1 (w.header + headerShift img)
          ((finalHdr env img files skipComp w).raw.take (copiedSize img)) := by
    rw [withHeader, ← finalHdr, copyHeader, headerShift, copiedSize, realHdrSz, hspaceEq, hsizeEq]
    split
    · have hlt := space_lt hpos hpage
      have hsize := le_hdrSize img.raw.kind
      have hmicro : amonetMicroloaderSz = 1024 := rfl
      rw [Header.hdrSize] at hroom
      rw [Option.getD_some, show (img.raw.space + (2 ^ 64 - amonetMicroloaderSz)) % 2 ^ 64
        = img.raw.space - amonetMicroloaderSz by omega]
    · rw [Nat.add_zero, List.take_of_length_le (Nat.le_of_eq hraw)]
  have hcopied : ((finalHdr env img files skipComp w).raw.take (copiedSize img)).length
      = copiedSize img := by
    rw [List.length_take, hraw]
    omega
  have hself := @slice_patch_self _ (w.header + headerShift img) (patched env img files skipComp w).1
    ((finalHdr env img files skipComp w).raw.take (copiedSize img)) (by rw [length_patched, hcopied]; omega)
  rwa [hcopied, ← hpatch] at hself

theorem storedHdr_eq (hsigned : img.flags.avb1Signed = true → w.tail < 2 ^ 32) :
    storedHdr img
        (signImg env img w (patchWrapper env img w (withHeader env img files skipComp w)))
      = some ((finalHdr env img files skipComp w).cut (copiedSize img)) := by
  obtain ⟨-, hle, hfits⟩ := copiedSize_bounds hroom
  have hslice := slice_withHeader_copied hroom hwrote hpos hpage hspace
  have hdata := hwrote.prefix_data.length_le
  have hpageLength := hwrote.space_le_fd hspace
  have htail := hwrote.tail
  rw [← htail] at hdata
  rw [List.length_append] at htail
  have hlength : (patchWrapper env img w (withHeader env img files skipComp w)).length
      = w.data.length := by
    rw [length_patchWrapper, length_withHeader]
  have hmem : 512 ≤ img.mem.length := by
    have hsize := le_hdrSize img.raw.kind
    rw [Header.hdrSize] at hroom
    omega
  have hout := length_le_signImg env img w
    (patchWrapper env img w (withHeader env img files skipComp w))
  rw [storedHdr, ← hwrote.header, ← finalHdr_kind hwrote]
  apply readHeader_cut
  · rw [finalHdr_kind hwrote]
    exact hle
  · omega
  · rw [slice_signImg hsigned (by omega) (by omega),
      slice_patchWrapper_of_header hmem (by rw [hwrote.header]; exact Nat.le_add_right _ _), hslice]

end Stored

/-- The place of a block in the output, as the sizes of the blocks before it give it. -/
def componentPlace (env : Env) (img : BootImg) (files : Files) (skipComp : Bool) (blk : Block) : Nat :=
  (wrapper img).length
    + (places img.raw.pageSize img.raw.space (pieces env img files skipComp)).getD (Block.all.idxOf blk) 0

/-- The files do not lead to a block that the header of the output does not delimit: none is too long
to be copied in one go or for 32 bits, none starts beyond them, a kernel from the source is there as a
whole, and the copied part of the header has a field for the size of each. -/
structure Delimited (env : Env) (img : BootImg) (files : Files) (skipComp : Bool) : Prop where
  kernel : files.kernel = none → (img.kernel.zInfo ≠ none → img.kernel.size ≠ 0) ∧
    (img.kernel.mtk = true → mtkHdrSize ≤ img.kernel.dtb.getD (img.raw.get .kernelSize))
  short : ∀ blk ∈ hashedBlocks, ∀ m, files.restoredFile blk = some m → m.length ≤ sendfileMax
  amonet : img.flags.amonet = true → ∀ blk ∈ [Block.recoveryDtbo, .dtb],
    files.restoredFile blk ≠ none → ∀ off, img.raw.kind.offset blk.sizeField = some off →
      amonetMicroloaderSz + off + 4 ≤ img.raw.space
  small : ∀ blk ∈ hashedBlocks, (segmentOf env img files skipComp blk).bytes.length < 2 ^ 32 ∧
    ((segmentOf env img files skipComp blk).bytes ≠ [] → componentPlace env img files skipComp blk < 2 ^ 32)
  signature : img.flags.avb1Signed = true → ∀ sizes, componentSizes env img files skipComp = some sizes →
    (wrapper img).length + imageEnd img sizes < 2 ^ 32

structure Hashed (env : Env) (file : List UInt8) (img : BootImg) (files : Files) (skipComp : Bool)
    (w : Written) : Prop where
  loaded : load env file = some img
  id : (img.raw.kind.textOffset .id).isSome
  room : img.raw.hdrSize ≤ img.raw.pageSize
  page : img.raw.pageSize < 2 ^ 31
  delimited : Delimited env img files skipComp
  recoveryDtbo : files.recoveryDtbo.isSome ↔ img.raw.get .recoveryDtboSize ≠ 0
  extra : files.extra.isSome ↔ img.raw.get .extraSize ≠ 0
  ramdisk : img.ramdisk.mtk = true → files.ramdisk.isSome
  wrote : Wrote env img files skipComp w

theorem table_eq_zero_of_id (hid : (img.raw.kind.textOffset .id).isSome) :
    img.raw.get .vendorRamdiskTableSize = 0 :=
  get_eq_zero ((early_le hid).2.2 .vendorRamdiskTable (by decide))

namespace Hashed

variable {env : Env} {file : List UInt8} {img : BootImg} {files : Files} {skipComp : Bool}
  {w : Written} (hhashed : Hashed env file img files skipComp w)

include hhashed

theorem kernelBody_counted (hlt : (kernelBody env img files skipComp).1.length < 2 ^ 32) :
    (kernelBody env img files skipComp).1.length = (kernelBody env img files skipComp).2 := by
  cases hfile : files.kernel with
  | some m =>
      cases hz : img.kernel.zInfo with
      | none => simp only [kernelBody, hfile, hz]
      | some z =>
          simp only [kernelBody, hfile, hz, List.length_append] at hlt ⊢
          rw [Nat.mod_eq_of_lt (by omega : (kernelPayload env img skipComp m).length < 2 ^ 32)]
  | none =>
      obtain ⟨hstream, hmtk⟩ := hhashed.delimited.kernel hfile
      rcases kernelBlock_of_load hhashed.loaded with ⟨-, hnone⟩ | ⟨n, part, hblock⟩
      · simp [kernelBody, hfile, hnone]
      · have hmtk' : img.kernel.mtk = true → mtkHdrSize ≤ n := by
          rw [hblock.n_eq]
          exact hmtk
        have hend := hblock.part_end_of_mtk hmtk'
        have hle := hblock.n_le
        have hlength := hblock.length
        rw [hblock.kernelBody_none hfile hstream]
        apply length_slice_of_le
        rw [List.length_drop]
        omega

theorem hdrSize_le_space : img.raw.hdrSize ≤ img.raw.space := by
  have hspace : img.raw.space = img.raw.pageSize := by
    have hid := hhashed.id
    rw [Header.space, if_neg]
    revert hid
    cases img.raw.kind <;> decide
  rw [hspace]
  exact hhashed.room

theorem exact {blk : Block} (hblk : blk ∈ hashedBlocks)
    (hfield : blk = .dtb → (img.raw.kind.offset .dtbSize).isSome) :
    Exact env img files skipComp blk := by
  obtain ⟨flags, hparsed, -⟩ := load_parsed hhashed.loaded
  have hsmall := hhashed.delimited.small
  have hid := hhashed.id
  have hnone : ∀ {α : Type} {o : Option α} {n : Nat}, (o.isSome ↔ n ≠ 0) → o = none → n = 0 := by
    rintro α o n hiff rfl
    by_contra hn
    exact Bool.false_ne_true (hiff.2 hn)
  have hsome : ∀ {f : Field}, img.raw.get f ≠ 0 → (img.raw.kind.offset f).isSome := by
    intro f hne
    rw [Option.isSome_iff_ne_none]
    exact fun hnone => hne (get_eq_zero hnone)
  have hcounted : (kernelBody env img files skipComp).1.length
      = (kernelBody env img files skipComp).2 := by
    apply hhashed.kernelBody_counted
    have hlt := (hsmall .kernel (by decide)).1
    simp only [segmentOf, kernelSegment, List.length_append] at hlt
    omega
  apply exact_of_files hparsed hhashed.page (table_eq_zero_of_id hid) (hnone hhashed.extra)
    (hnone hhashed.recoveryDtbo) _ hcounted (hhashed.delimited.short blk hblk)
  · intro hbytes
    cases blk with
    | kernel | ramdisk | second =>
        revert hid
        cases img.raw.kind <;> decide
    | extra =>
        apply hsome (hhashed.extra.1 (Option.isSome_iff_ne_none.2 _))
        intro hfile
        simp [segmentOf, extraSegment, hfile] at hbytes
    | recoveryDtbo =>
        apply hsome (hhashed.recoveryDtbo.1 (Option.isSome_iff_ne_none.2 _))
        intro hfile
        simp [segmentOf, restoreSegment, hfile] at hbytes
    | dtb => exact hfield rfl
    | signature | vendorRamdiskTable | bootconfig => exact absurd hblk (by decide)
  · exact (hsmall blk hblk).1
  · intro hfile
    cases hmtk : img.ramdisk.mtk with
    | false => rfl
    | true =>
        have hsome := hhashed.ramdisk hmtk
        rw [hfile] at hsome
        cases hsome

theorem offset_le_copiedSize {f : Field} (hf : f ∈ earlyFields)
    (hoff : (finalHdr env img files skipComp w).kind.offset f = some off) :
    off + f.width ≤ copiedSize img := by
  have hle := (early_le hhashed.id).1 f hf
  rw [finalHdr_kind hhashed.wrote] at hoff
  rw [hoff, Option.all_some, decide_eq_true_eq] at hle
  exact hle.trans (copiedSize_bounds hhashed.hdrSize_le_space).1

theorem copiedSize_le : copiedSize img ≤ (finalHdr env img files skipComp w).kind.hdrSize := by
  rw [finalHdr_kind hhashed.wrote]
  exact (copiedSize_bounds hhashed.hdrSize_le_space).2.1

theorem get_cut_sizeField (blk : Block) :
    ((finalHdr env img files skipComp w).cut (copiedSize img)).get blk.sizeField
      = (finalHdr env img files skipComp w).get blk.sizeField := by
  have hkind := finalHdr_kind hhashed.wrote
  have hget := finalHdr_get hhashed.wrote blk
  have hrestored : blk ∈ [Block.recoveryDtbo, .dtb] →
      (files.restoredFile blk = none → describedSize img (blk, segmentOf env img files skipComp blk) = 0) →
      (finalHdr env img files skipComp w).get blk.sizeField = 0 ∨
        ∀ off, (finalHdr env img files skipComp w).kind.offset blk.sizeField = some off →
          off + blk.sizeField.width ≤ copiedSize img := by
    intro hblk hzero
    by_cases hfile : files.restoredFile blk = none
    · exact .inl (hget.trans (hzero hfile))
    · right
      intro off hoff
      rw [hkind] at hoff
      have hfield := field_in_header hoff
      rw [blk.width_sizeField] at hfield ⊢
      rw [copiedSize]
      split
      · rename_i hamonet
        have hle := hhashed.delimited.amonet hamonet blk hblk hfile off hoff
        rw [Header.hdrSize]
        omega
      · exact hfield
  apply get_cut_of_kept
  cases blk with
  | kernel | ramdisk | second | extra =>
      exact .inr fun off => hhashed.offset_le_copiedSize (by decide)
  | recoveryDtbo =>
      apply hrestored (by decide)
      intro hfile
      simp only [Files.restoredFile] at hfile
      rw [segmentOf, hfile, describedSize_recoveryDtbo_none]
      by_contra hne
      have hsome := hhashed.recoveryDtbo.2 hne
      rw [hfile] at hsome
      cases hsome
  | dtb =>
      apply hrestored (by decide)
      intro hfile
      simp only [Files.restoredFile] at hfile
      rw [segmentOf, hfile]
      rfl
  | signature | vendorRamdiskTable | bootconfig =>
      left
      rw [get_eq_zero]
      rw [hkind]
      exact (early_le hhashed.id).2.2 _ (by decide)

theorem idInput_cut (out : List UInt8) (base : Nat) :
    ((finalHdr env img files skipComp w).cut (copiedSize img)).idInput out base
      = (finalHdr env img files skipComp w).idInput out base := by
  have hget : ∀ f ∈ earlyFields, ((finalHdr env img files skipComp w).cut (copiedSize img)).get f
      = (finalHdr env img files skipComp w).get f := fun f hf =>
    get_cut_of_kept
      (.inr fun off => hhashed.offset_le_copiedSize hf)
  apply idInput_congr
  · rfl
  · exact hget _ (by decide)
  · exact hget _ (by decide)
  · exact hhashed.get_cut_sizeField

theorem dtbSize_le :
    (finalHdr env img files skipComp w).get .dtbSize
      ≤ (segmentOf env img files skipComp .dtb).bytes.length := by
  by_cases hfield : img.raw.kind.offset .dtbSize = none
  · rw [get_eq_zero]
    · exact Nat.zero_le _
    · rwa [finalHdr_kind hhashed.wrote]
  · have hdtb : Exact env img files skipComp .dtb := hhashed.exact (by decide) fun _ =>
      Option.isSome_iff_ne_none.2 hfield
    exact Nat.le_of_eq ((finalHdr_get hhashed.wrote .dtb).trans hdtb.1)

theorem bytes_ne_nil {blk : Block} (hblk : blk ∈ hashedBlocks)
    (hne : (finalHdr env img files skipComp w).get blk.sizeField ≠ 0) :
    (segmentOf env img files skipComp blk).bytes ≠ [] := by
  intro hnil
  apply hne
  by_cases hlast : blk = .dtb
  · subst hlast
    have hle := hhashed.dtbSize_le
    rw [hnil] at hle
    exact Nat.le_zero.1 hle
  · rw [finalHdr_get hhashed.wrote, (hhashed.exact hblk fun h => absurd h hlast).1, hnil]
    rfl

theorem idMatches (hwrite : writeImg env img files skipComp = some w) :
    IdMatches env img
      (signImg env img w (patchWrapper env img w (withHeader env img files skipComp w))) := by
  obtain ⟨flags, hparsed, -⟩ := load_parsed hhashed.loaded
  have hwrote := hhashed.wrote
  have hpos := hparsed.pageSize_pos
  have hspace := hparsed.space_le hhashed.page
  have hroom := hhashed.hdrSize_le_space
  have hexact : ∀ blk ∈ hashedBlocks.dropLast, Exact env img files skipComp blk := by
    intro blk hblk
    apply hhashed.exact (List.mem_of_mem_dropLast hblk)
    rintro rfl
    exact absurd hblk (by decide)
  have hsigned : img.flags.avb1Signed = true → w.tail < 2 ^ 32 := by
    rw [hwrote.tail_eq hspace hpos, hwrote.header]
    intro hsigned
    apply hhashed.delimited.signature hsigned
    rw [componentSizes, segments_eq (table_eq_zero_of_id hhashed.id), Option.map_some]
  have hplaces : ∀ blk ∈ hashedBlocks, (finalHdr env img files skipComp w).get blk.sizeField ≠ 0 →
      w.header + (finalHdr env img files skipComp w).blockOff blk < 2 ^ 32 := by
    intro blk hblk hne
    have hlt := (hhashed.delimited.small blk hblk).2 (hhashed.bytes_ne_nil hblk hne)
    have hplace := (place_hashed hwrote hpos hexact hspace hblk).1
    rw [hwrote.places_eq hspace, List.getElem?_map, Option.map_eq_some_iff] at hplace
    obtain ⟨pos, hpos', hplace⟩ := hplace
    rw [componentPlace, List.getD_eq_getElem?_getD, hpos', Option.getD_some, ← hwrote.header, hplace] at hlt
    exact hlt
  have hinput := shaInput_eq_idInput hwrite hwrote (table_eq_zero_of_id hhashed.id) hpos hspace hexact
    hhashed.dtbSize_le hplaces fun off n => slice_repackImg hwrote (headerFits_of_le hroom) hpos
      hhashed.page hsigned
  refine ⟨_, storedHdr_eq hroom hwrote hpos hhashed.page hspace hsigned, ?_⟩
  rw [hhashed.idInput_cut, text_cut hhashed.copiedSize_le, text_final hhashed.id hwrote, hinput,
    hwrote.header]
  intro off k harray
  have hle := (early_le hhashed.id).2.1
  rw [finalHdr_kind hhashed.wrote] at harray
  rw [harray, Option.all_some, decide_eq_true_eq] at hle
  exact hle.trans (copiedSize_bounds hroom).1

end Hashed

theorem repack_eq {env : Env} {file : List UInt8} (hload : load env file = some img) (files : Files)
    (skipComp : Bool) : repack env file files skipComp = repackImg env img files skipComp := by
  rw [repack, hload]
  rfl

def hashEnv : Env where
  __ := sampleEnv
  sha1 x := (x.drop 4).take 20

def bareZImage : ZImage where
  head := zeros 36 ++ leBytes 4 0x016f2818 ++ zeros 8 ++ leBytes 4 16 ++ zeros 12
  piggy := lz41Magic
  tail := zeros 16 ++ leBytes 4 68
  fmt := .lz4
  offInflatedSize := 0x30
  offLc0 := 0
  offLc1 := 0
  offTable := 0

def ramdiskFiles : Files where
  ramdisk := some [7]

variable {z : ZImage}

theorem load_hashEnv (hz : z = gzipZImage ∨ z = bareZImage) :
    load hashEnv (zImageFile z) = some (zImageImg z) := by
  have hdtb : ∀ buf, dtbOffset hashEnv.fdtAccepts buf = none := dtbOffset_sampleEnv
  rcases hz with rfl | rfl
  · exact load_zImage hdtb (by rfl) (by rfl) dvd_rfl (by decide)
  · exact load_zImage hdtb (by rfl) (by rfl) dvd_rfl (by decide)

theorem pageSize_zImageImg (z : ZImage) : (zImageImg z).raw.pageSize = 4096 := pageSize_v1Header _ _ _ _

theorem space_zImageImg (z : ZImage) : (zImageImg z).raw.space = 4096 := space_v1Header _ _ _ _

theorem pageSize_zImageImg_lt (z : ZImage) : (zImageImg z).raw.pageSize < 2 ^ 31 := by
  rw [pageSize_zImageImg]
  decide

theorem keepsPages_zImage (z : ZImage) (blk : Block) :
    (segmentOf hashEnv (zImageImg z) ramdiskFiles false blk).KeepsPages := by
  cases blk with
  | kernel | ramdisk => exact .inl rfl
  | signature => exact .inr rfl
  | second | extra | recoveryDtbo | dtb | vendorRamdiskTable | bootconfig => exact .inr rfl

theorem supplied_zImage (hz : z = gzipZImage ∨ z = bareZImage) :
    (ramdiskFiles.recoveryDtbo.isSome ↔ (zImageImg z).raw.get .recoveryDtboSize ≠ 0) ∧
      (ramdiskFiles.extra.isSome ↔ (zImageImg z).raw.get .extraSize ≠ 0) := by
  have hlt : (z.head ++ z.piggy ++ z.tail).length < 2 ^ 32 := by
    rcases hz with rfl | rfl <;> decide
  have hrecoveryDtbo : (zImageImg z).raw.get .recoveryDtboSize = 0 :=
    get_v1Of (v1Blocks_zImage hlt) .recoveryDtbo
  have hextra : (zImageImg z).raw.get .extraSize = 0 := get_eq_zero rfl
  rw [hrecoveryDtbo, hextra]
  exact ⟨by decide, by decide⟩

theorem tail_lt_zImage (hz : z = gzipZImage ∨ z = bareZImage) {w : Written}
    (hwrite : writeImg hashEnv (zImageImg z) ramdiskFiles false = some w) : w.tail < 2 ^ 32 := by
  have hload := load_hashEnv hz
  obtain ⟨flags, hparsed, -⟩ := load_parsed hload
  have hpage := pageSize_zImageImg z
  have hpageLt := pageSize_zImageImg_lt z
  have hspaceEq := space_zImageImg z
  obtain ⟨w', hwrite', hwrote⟩ : ∃ w', writeImg hashEnv (zImageImg z) ramdiskFiles false = some w' ∧
      Wrote hashEnv (zImageImg z) ramdiskFiles false w' :=
    writeImg_wrote (get_eq_zero rfl) hparsed.pageSize_pos hpageLt
  rw [hwrite, Option.some.injEq] at hwrite'
  subst hwrite'
  have hspace := hparsed.space_le hpageLt
  have hfd := length_fd_segmented hwrote.segmented hparsed.pageSize_pos (keepsPages_zImage z) hspace
  rw [hpage, hspaceEq, hwrote.header] at hfd
  rw [hwrote.tail, List.length_append, hfd]
  rcases hz with rfl | rfl <;> decide

theorem getElem?_digest_hashEnv {b : UInt8} (rest : List UInt8) :
    ((digest hashEnv (zImageImg z) (leBytes 4 0 ++ b :: rest) ++ zeros 32).take 32)[0]? = some b := by
  have hflags : (zImageImg z).flags = {} := sha256Flags_v1Header _ _ _ _ _ _
  have hdrop : (leBytes 4 0 ++ b :: rest).drop 4 = b :: rest := List.drop_left' (length_leBytes 4 0)
  have hdigest : digest hashEnv (zImageImg z) (leBytes 4 0 ++ b :: rest)
      = ((leBytes 4 0 ++ b :: rest).drop 4).take 20 := by
    rw [digest, hflags]
    rfl
  rw [hdigest, hdrop, List.take_succ_cons, List.cons_append, List.take_succ_cons]
  rfl

section Bare

variable {w : Written} (hwrote : Wrote hashEnv (zImageImg bareZImage) ramdiskFiles false w)

include hwrote

theorem bare_sizes :
    (finalHdr hashEnv (zImageImg bareZImage) ramdiskFiles false w).get .kernelSize = 0 ∧
      (finalHdr hashEnv (zImageImg bareZImage) ramdiskFiles false w).get .ramdiskSize = 1 :=
  ⟨finalHdr_get hwrote .kernel, finalHdr_get hwrote .ramdisk⟩

theorem bare_contents :
    w.place .ramdisk = 8192 ∧
      slice (patched hashEnv (zImageImg bareZImage) ramdiskFiles false w).1 8192 1 = [7] ∧
      slice (patched hashEnv (zImageImg bareZImage) ramdiskFiles false w).1 4096 1 = [0] ∧
      4096 + 1 ≤ w.tail := by
  have hload := load_hashEnv (.inr rfl)
  have hpage := pageSize_zImageImg bareZImage
  have hspaceEq := space_zImageImg bareZImage
  obtain ⟨flags, hparsed, -⟩ := load_parsed hload
  have hspace := hparsed.space_le (by rw [hpage]; decide)
  have hheader : w.header = 0 := hwrote.header
  have hpatched : (patched hashEnv (zImageImg bareZImage) ramdiskFiles false w).1 = w.data := rfl
  have hcontents := hwrote.contents hspace hparsed.pageSize_pos
  rw [plainSegments, List.map_cons, List.map_cons, places, places, List.forall₂_cons,
    List.forall₂_cons, hpage, hspaceEq, hheader] at hcontents
  obtain ⟨⟨hle, hkernel⟩, ⟨-, hramdisk⟩, -⟩ := hcontents
  have hplace := hwrote.place_ramdisk hspace
  rw [hpage, hspaceEq, hheader] at hplace
  have hone : 0 + 1
      ≤ (kernelSegment hashEnv (zImageImg bareZImage) ramdiskFiles false).piece.bytes.length := by
    decide
  have hfirst : slice (slice w.data (0 + 4096)
      (kernelSegment hashEnv (zImageImg bareZImage) ramdiskFiles false).piece.bytes.length) 0 1
      = slice w.data (0 + 4096 + 0) 1 := slice_slice hone
  rw [hkernel] at hfirst
  have hle : 0 + 4096
        + (kernelSegment hashEnv (zImageImg bareZImage) ramdiskFiles false).piece.bytes.length
      ≤ w.out.fd.length := hle
  have htail := hwrote.tail
  rw [List.length_append] at htail
  rw [hpatched]
  exact ⟨hplace, hramdisk, hfirst.symm, by omega⟩

theorem shaInput_bare :
    ∃ rest, shaInput w (patched hashEnv (zImageImg bareZImage) ramdiskFiles false w).1
      (finalHdr hashEnv (zImageImg bareZImage) ramdiskFiles false w) = leBytes 4 0 ++ 7 :: rest := by
  obtain ⟨hkernel, hramdisk⟩ := bare_sizes hwrote
  obtain ⟨hplace, hslice, -⟩ := bare_contents hwrote
  simp only [shaInput, Block.sizeField, hkernel, hramdisk, hplace, hslice, slice_zero, List.nil_append,
    List.append_assoc, List.cons_append]
  exact ⟨_, rfl⟩

theorem idInput_bare (hsmall : w.tail < 2 ^ 32) :
    ∃ rest, (finalHdr hashEnv (zImageImg bareZImage) ramdiskFiles false w).idInput
      (signImg hashEnv (zImageImg bareZImage) w (patchWrapper hashEnv (zImageImg bareZImage) w
        (withHeader hashEnv (zImageImg bareZImage) ramdiskFiles false w))) 0 = leBytes 4 0 ++ 0 :: rest := by
  obtain ⟨hkernel, hramdisk⟩ := bare_sizes hwrote
  obtain ⟨-, -, hslice, hle⟩ := bare_contents hwrote
  have hpage := pageSize_zImageImg bareZImage
  have hspaceEq := space_zImageImg bareZImage
  have hheader : w.header = 0 := hwrote.header
  have hfits : HeaderFits (zImageImg bareZImage) := by
    apply headerFits_of_le
    rw [hspaceEq]
    decide
  have hoff : (finalHdr hashEnv (zImageImg bareZImage) ramdiskFiles false w).blockOff .ramdisk = 4096 := by
    have hsecond : ∀ h : Header, h.blockOff .ramdisk = h.space + roundUp h.pageSize (h.get .kernelSize) :=
      fun _ => rfl
    rw [hsecond, finalHdr_space hwrote, finalHdr_pageSize hwrote, hpage, hspaceEq, hkernel]
    rfl
  have hout := @slice_repackImg _ _ _ _ _ 1 4096 hwrote hfits (by rw [hpage]; decide)
    (by rw [hpage]; decide) (fun _ => hsmall) (by rw [hspaceEq, hheader]) hle
  rw [hslice] at hout
  simp only [Header.idInput, Header.sizedBlock, Block.sizeField, hkernel, hramdisk, hoff, hout,
    Nat.zero_add, slice_zero, List.nil_append, List.append_assoc, List.cons_append]
  exact ⟨_, rfl⟩

theorem not_idMatches_bare (hsmall : w.tail < 2 ^ 32) :
    ¬ IdMatches hashEnv (zImageImg bareZImage)
      (signImg hashEnv (zImageImg bareZImage) w (patchWrapper hashEnv (zImageImg bareZImage) w
        (withHeader hashEnv (zImageImg bareZImage) ramdiskFiles false w))) := by
  have hpage := pageSize_zImageImg bareZImage
  have hspaceEq := space_zImageImg bareZImage
  have hpageLt := pageSize_zImageImg_lt bareZImage
  have hroom : (zImageImg bareZImage).raw.hdrSize ≤ (zImageImg bareZImage).raw.space := by
    rw [hspaceEq]
    decide
  obtain ⟨flags, hparsed, -⟩ := load_parsed (load_hashEnv (.inr rfl))
  have hspace := hparsed.space_le hpageLt
  rintro ⟨h, hstored, htext⟩
  have hcut := cut_self (finalHdr hashEnv (zImageImg bareZImage) ramdiskFiles false w)
  rw [finalHdr_kind hwrote] at hcut
  rw [storedHdr_eq hroom hwrote hparsed.pageSize_pos hpageLt hspace fun _ => hsmall, Option.some.injEq] at hstored
  obtain rfl := hcut.symm.trans hstored
  obtain ⟨rest, hsha⟩ := shaInput_bare hwrote
  obtain ⟨rest', hread⟩ := idInput_bare hwrote hsmall
  rw [text_final rfl hwrote, hsha, show (wrapper (zImageImg bareZImage)).length = 0 from rfl, hread] at htext
  have hbyte := congrArg (·[0]?) htext
  simp only [getElem?_digest_hashEnv] at hbyte
  exact absurd hbyte (by decide)

end Bare

end MagiskNative.Boot
