import MagiskNative.Boot.RawTrip
import MagiskNative.Boot.Checksum

/-!
# What follows the blocks of the output

Behind the blocks the output has a trailer or a signature and zeros, so that a reader finds an AVB
footer there only if a signature looks like one.
-/

namespace MagiskNative.Boot

open Bytes Layout Header

variable {i : Nat} {b : UInt8}

section

variable {env : Env} {mem : List UInt8} {addr off : Nat} {flags : Flags} {tail : TailInfo}

theorem parseTail_of_ne (hlt : addr + off < mem.length)
    (hne : slice mem (mem.length - avbFooterSize) 4 ≠ avbFooterMagic) :
    ∃ tail, parseTail env mem addr off flags = some tail := by
  rw [parseTail_of_lt hlt, parseFooter]
  simp only [if_neg hne]
  exact ⟨_, rfl⟩

theorem parseTail_of_footer_none (htail : parseTail env mem addr off flags = some tail)
    (hnone : tail.avbFooter = none) :
    tail.vbmeta = none ∧
      (addr + off = mem.length ∨ slice mem (mem.length - avbFooterSize) 4 ≠ avbFooterMagic) ∧
      (tail.flags = flags ∨ ∃ env' payload rest, tail.flags = tailFlags env' payload rest flags) := by
  rcases parseTail_cases htail with ⟨rfl, hend⟩ | ⟨env', payload, rest, hfooter⟩
  · exact ⟨rfl, .inl hend, .inl rfl⟩
  · simp only [parseFooter] at hfooter
    split at hfooter
    · split at hfooter
      · cases hfooter
      · split at hfooter <;>
        · cases hfooter
          cases hnone
    · rename_i hmagic
      cases hfooter
      exact ⟨rfl, .inr hmagic, .inr ⟨env', payload, rest, rfl⟩⟩

theorem trailer_of_tailFlags {payload rest : List UInt8} (hseandroid : flags.seandroid = false)
    (hlgBump : flags.lgBump = false) (hsigned : flags.avb1Signed = false)
    (hnew : (tailFlags env payload rest flags).avb1Signed = true) :
    (tailFlags env payload rest flags).seandroid = false ∧
      (tailFlags env payload rest flags).lgBump = false := by
  rw [tailFlags] at hnew ⊢
  split at hnew
  · rw [hsigned] at hnew
    cases hnew
  · split at hnew
    · rw [hsigned] at hnew
      cases hnew
    · rename_i hno hno'
      rw [if_neg hno, if_neg hno']
      split
      · exact ⟨hseandroid, hlgBump⟩
      · exact ⟨hseandroid, hlgBump⟩

end

theorem getElem?_of_slice {a b : List UInt8} (hslice : slice a i 1 = slice b i 1) :
    a[i]? = b[i]? := by
  have hbyte := congrArg (fun l : List UInt8 => l[0]?) hslice
  simpa only [getElem?_slice, Nat.add_zero, Nat.zero_lt_one, if_true] using hbyte

theorem getElem?_of_slice_footer {mem : List UInt8} {p : Nat} (hmagic : slice mem p 4 = avbFooterMagic)
    (hi : i < 4) : mem[p + i]? = avbFooterMagic[i]? := by
  rw [← hmagic, getElem?_slice, if_pos hi]

theorem footer_ne_zero (hi : i < 4) : ∃ b, avbFooterMagic[i]? = some b ∧ b ≠ 0 := by
  have hall : ∀ i < 4, ∃ b, avbFooterMagic[i]? = some b ∧ b ≠ 0 := by
    intro i hi
    have hin : i = 0 ∨ i = 1 ∨ i = 2 ∨ i = 3 := by omega
    rcases hin with rfl | rfl | rfl | rfl <;> exact ⟨_, rfl, by decide⟩
  exact hall i hi

theorem infix_of_slice_append_zeros {back : List UInt8} {k o : Nat}
    (hmagic : slice (back ++ zeros k) o 4 = avbFooterMagic) : avbFooterMagic <:+: back := by
  by_cases hle : o + 4 ≤ back.length
  · rw [slice_append_left hle] at hmagic
    rw [← hmagic, slice]
    exact (List.take_prefix _ _).isInfix.trans (List.drop_suffix _ _).isInfix
  · obtain ⟨b, hb, hne⟩ := footer_ne_zero (show 3 < 4 by decide)
    have hbyte := getElem?_of_slice_footer hmagic (show 3 < 4 by decide)
    rw [hb, List.getElem?_append_right (by omega)] at hbyte
    exact absurd (List.eq_of_mem_replicate (List.mem_of_getElem? hbyte)) hne

/-- **No footer appears.** The new memory has at its end what the old one had, or zeros, and behind
`stop` some bytes without the magic. -/
theorem slice_ne_footer {mem mem' back : List UInt8} {p stop k : Nat} (hp : 4096 ≤ p)
    (hmem : p ∣ mem.length) (hmem' : p ∣ mem'.length) (hle : mem.length ≤ mem'.length)
    (hstop : stop ≤ mem.length) (hmore : stop < mem'.length)
    (hback : mem'.drop stop = back ++ zeros k)
    (hfront : ∀ i b, 4032 ≤ i → stop ≤ i + avbFooterSize → i < stop → mem'[i]? = some b →
      b = 0 ∨ mem[i]? = some b)
    (hnone : mem.length ≤ stop ∨ slice mem (mem.length - avbFooterSize) 4 ≠ avbFooterMagic)
    (hmissing : ¬ avbFooterMagic <:+: back) (hhead : ∀ b ∈ back.head?, b ∉ avbFooterMagic.tail) :
    slice mem' (mem'.length - avbFooterSize) 4 ≠ avbFooterMagic := by
  have hsize : avbFooterSize = 64 := rfl
  intro hmagic
  have hlong : 4096 ≤ mem'.length := hp.trans (Nat.le_of_dvd (by omega) hmem')
  by_cases hbehind : stop ≤ mem'.length - avbFooterSize
  · apply hmissing
    rw [show mem'.length - avbFooterSize = stop + (mem'.length - avbFooterSize - stop) by omega,
      ← slice_drop, hback] at hmagic
    exact infix_of_slice_append_zeros hmagic
  · -- The footer would start before `stop`, so the memories are equally long.
    have hlength : mem'.length = mem.length := by
      obtain ⟨a, ha⟩ := hmem
      obtain ⟨b, hb⟩ := hmem'
      rcases Nat.lt_or_ge a b with hlt | hge
      · have hmul : p * (a + 1) ≤ p * b := Nat.mul_le_mul_left p hlt
        rw [Nat.mul_add] at hmul
        omega
      · have hmul : p * b ≤ p * a := Nat.mul_le_mul_left p hge
        omega
    have hold := hnone.resolve_left (by omega)
    rw [hlength] at hmagic
    by_cases hin : mem.length - avbFooterSize + 4 ≤ stop
    · apply hold
      apply List.ext_getElem?
      intro i
      by_cases hi : i < 4
      · obtain ⟨b, hb, hne⟩ := footer_ne_zero hi
        have hbyte := getElem?_of_slice_footer hmagic hi
        rw [hb] at hbyte
        rw [getElem?_slice, if_pos hi, hb]
        exact (hfront _ b (by omega) (by omega) (by omega) hbyte).resolve_left hne
      · have hlen : avbFooterMagic.length = 4 := by decide
        rw [getElem?_slice, if_neg hi, List.getElem?_eq_none (by omega)]
    · -- Its last bytes would be those behind `stop`.
      have hi : stop - (mem.length - avbFooterSize) < 4 := by omega
      obtain ⟨b, hb, hne⟩ := footer_ne_zero hi
      have hbyte := getElem?_of_slice_footer hmagic hi
      have hfirst : mem'[stop]? = (back ++ zeros k)[0]? := by
        rw [← hback, List.getElem?_drop, Nat.add_zero]
      rw [show mem.length - avbFooterSize + (stop - (mem.length - avbFooterSize)) = stop by omega, hb,
        hfirst] at hbyte
      cases back with
      | nil =>
          rw [List.nil_append] at hbyte
          exact hne (List.eq_of_mem_replicate (List.mem_of_getElem? hbyte))
      | cons c cs =>
          obtain rfl : c = b := Option.some.inj hbyte
          apply hhead c rfl
          rw [List.mem_iff_getElem?]
          refine ⟨stop - (mem.length - avbFooterSize) - 1, ?_⟩
          rw [List.getElem?_tail, ← hb]
          congr 1
          omega

section Output

variable {env : Env} {file : List UInt8} {img : BootImg} {files : Files} {skipComp : Bool}
  {w : Written}

variable (env img files skipComp w) in
def newSignature : List UInt8 :=
  if img.flags.avb1Signed then
    env.signPayload (slice (withHeader env img files skipComp w) w.header (aospImgSize w))
  else []

theorem newSignature_of_unsigned (hunsigned : img.flags.avb1Signed = false) :
    newSignature env img files skipComp w = [] := by
  rw [newSignature, hunsigned, if_neg Bool.false_ne_true]

theorem signImg_eq :
    signImg env img w (withHeader env img files skipComp w)
      = if newSignature env img files skipComp w = [] then withHeader env img files skipComp w
        else writeAt (withHeader env img files skipComp w) (w.tail % 2 ^ 32)
          (newSignature env img files skipComp w) := by
  rw [signImg, newSignature]
  split
  · simp only [ne_eq, ite_not]
  · rw [if_pos rfl]

variable (hsource : PlainSource env file img)

include hsource

theorem PlainSource.vbmeta : img.vbmeta = none :=
  (parseTail_of_footer_none hsource.atZero.parsed.tail hsource.footer).1

theorem PlainSource.trailer_eq_nil (hsigned : img.flags.avb1Signed = true) : trailer img = [] := by
  obtain ⟨-, -, hflags⟩ := parseTail_of_footer_none hsource.atZero.parsed.tail hsource.footer
  simp only at hflags
  rcases hflags with hflags | ⟨env', payload, rest, hflags⟩
  · rw [hflags] at hsigned
    cases hsigned
  · rw [hflags] at hsigned
    obtain ⟨hseandroid, hlgBump⟩ := trailer_of_tailFlags rfl rfl rfl hsigned
    rw [← hflags] at hseandroid hlgBump
    rw [trailer, hseandroid, hlgBump]
    rfl

theorem PlainSource.repack_eq (hwrite : writeImg env img files skipComp = some w) :
    repack env file files skipComp
      = some (signImg env img w (withHeader env img files skipComp w)) := by
  have hdhtb := hsource.atZero.flags_eq Flags.dhtb fun _ => ⟨rfl, rfl, rfl, rfl⟩
  have hblob := hsource.atZero.flags_eq Flags.blob fun _ => ⟨rfl, rfl, rfl, rfl⟩
  have hwrapper : ∀ data, patchWrapper env img w data = data := by
    intro data
    rw [patchWrapper, hdhtb, hblob]
    rfl
  rw [repack, hsource.loaded]
  have hmapped : WrapperMapped env img w w.data := by
    intro h
    rw [hdhtb] at h
    cases h
  exact (repackImg_eq hwrite (.inl hsource.footer) hmapped).trans (by rw [hwrapper])

variable (hwrote : Wrote env img files skipComp w)

include hwrote

theorem PlainSource.drop_data :
    ∃ k, w.data.drop w.out.fd.length = trailer img ++ zeros k := by
  obtain ⟨vbmeta, hdata, hvbmeta⟩ := hwrote.data
  rw [hvbmeta hsource.vbmeta, List.append_nil, List.append_assoc] at hdata
  rw [hdata, padToSource]
  split
  · exact ⟨_, List.drop_left⟩
  · rw [List.append_assoc, List.append_assoc, List.drop_left, zeros_append_zeros]
    exact ⟨_, rfl⟩

theorem PlainSource.withHeader_eq_patch :
    withHeader env img files skipComp w
      = patch (patched env img files skipComp w).1 0 (finalHdr env img files skipComp w).raw := by
  rw [withHeader_eq hsource.amonet, hwrote.header, hsource.atZero.wrapper_eq, List.length_nil,
    ← finalHdr]

theorem PlainSource.drop_withHeader :
    (withHeader env img files skipComp w).drop w.out.fd.length = w.data.drop w.out.fd.length := by
  have hdrop : ∀ a : List UInt8, a.length = w.data.length →
      a.drop w.out.fd.length = slice a w.out.fd.length w.data.length := by
    intro a ha
    rw [slice, List.take_of_length_le]
    rw [List.length_drop]
    omega
  have hheader := hsource.header
  have hlength := length_raw_finalHdr hwrote
  have hspace := hwrote.space_le_fd hsource.space_le
  rw [hsource.withHeader_eq_patch hwrote, drop_patch (by omega), hdrop _ (length_patched w),
    slice_patched_of_le hsource.atZero.parsed hwrote hsource.page hsource.table le_rfl, hdrop _ rfl]

variable (hsmall : img.flags.avb1Signed = true → w.tail < 2 ^ 32)

include hsmall

theorem PlainSource.drop_out :
    ∃ k, (signImg env img w (withHeader env img files skipComp w)).drop w.out.fd.length
      = trailer img ++ newSignature env img files skipComp w ++ zeros k := by
  obtain ⟨k, hdata⟩ := hsource.drop_data hwrote
  rw [← hsource.drop_withHeader hwrote] at hdata
  rw [signImg_eq]
  split
  · rename_i hnil
    exact ⟨k, by rw [hnil, List.append_nil, hdata]⟩
  · rename_i hsig
    have hsigned : img.flags.avb1Signed = true := by
      by_contra hno
      exact hsig (if_neg hno)
    have htrailer := hsource.trailer_eq_nil hsigned
    have htail : w.tail = w.out.fd.length := by
      rw [hwrote.tail, htrailer, List.append_nil]
    have hle : w.out.fd.length ≤ (withHeader env img files skipComp w).length := by
      rw [length_withHeader]
      exact hwrote.prefix_fd.length_le
    rw [Nat.mod_eq_of_lt (hsmall hsigned), htail, drop_writeAt hle, ← List.drop_drop, hdata, htrailer]
    simp only [List.nil_append, zeros, List.drop_replicate]
    exact ⟨_, rfl⟩

omit hsource in
theorem slice_signImg_withHeader {off n : Nat} (hle : off + n ≤ w.out.fd.length) :
    slice (signImg env img w (withHeader env img files skipComp w)) off n
      = slice (withHeader env img files skipComp w) off n := by
  have htail := hwrote.tail
  have hdata := hwrote.prefix_data.length_le
  rw [List.length_append] at htail hdata
  apply slice_signImg hsmall
  · rw [length_withHeader]
    omega
  · omega

theorem PlainSource.frame_out {off n : Nat} (hoff : img.raw.space ≤ off)
    (hle : off + n ≤ w.out.fd.length) :
    slice (signImg env img w (withHeader env img files skipComp w)) off n
      = slice (patched env img files skipComp w).1 off n := by
  have hheader := hsource.header
  have hlength := length_raw_finalHdr hwrote
  rw [slice_signImg_withHeader hwrote hsmall hle, hsource.withHeader_eq_patch hwrote,
    slice_patch_of_disjoint (by omega)]

theorem PlainSource.prefix_out :
    (finalHdr env img files skipComp w).raw
      <+: signImg env img w (withHeader env img files skipComp w) := by
  have hheader := hsource.header
  have hlength := length_raw_finalHdr hwrote
  have hspace := hwrote.space_le_fd hsource.space_le
  have hfd := hwrote.prefix_fd.length_le
  have hslice := prefix_drop_iff (finalHdr env img files skipComp w).raw
    (signImg env img w (withHeader env img files skipComp w)) 0
  rw [List.drop_zero] at hslice
  rw [hslice, slice_signImg_withHeader hwrote hsmall (by omega), hsource.withHeader_eq_patch hwrote,
    slice_patch_self]
  rw [length_patched]
  omega

omit hsource hsmall in
theorem length_fd_le_signImg :
    w.out.fd.length ≤ (signImg env img w (withHeader env img files skipComp w)).length := by
  have hle := length_le_signImg env img w (withHeader env img files skipComp w)
  have hfd := hwrote.prefix_fd.length_le
  rw [length_withHeader] at hle
  exact hfd.trans hle

theorem PlainSource.load_out (hexact : ∀ blk, Exact env img files skipComp blk)
    (halias : ¬ aliases (finalHdr env img files skipComp w))
    (hclear : ¬ Disguised (finalHdr env img files skipComp w)) {kernel : KernelPart}
    {ramdisk : Payload} {eFmt : FileFormat} {tail : TailInfo}
    (hparts : PartsOf env (finalBlock env img files skipComp w) kernel ramdisk eFmt)
    (htail : parseTail env
      (env.map (signImg env img w (withHeader env img files skipComp w))) 0
      (finalHdr env img files skipComp w).stop
      (sha256Flags ⟨finalHdr env img files skipComp w, 0, {}⟩) = some tail) :
    ∃ img', load env (signImg env img w (withHeader env img files skipComp w)) = some img' ∧
      img'.kernel = kernel ∧ img'.ramdisk = ramdisk ∧ img'.eFmt = eFmt ∧
      img'.raw = finalHdr env img files skipComp w ∧
      ∀ blk, img'.block blk = finalBlock env img files skipComp w blk := by
  have hlength := length_fd_le_signImg hwrote
  refine ⟨_, load_repacked hsource.loaded hsource.atZero hwrote hsource.page hexact hlength
    (fun off n => hsource.frame_out hwrote hsmall) halias hclear hsource.table
    (hsource.prefix_out hwrote hsmall) hparts htail,
    rfl, rfl, rfl, rfl, ?_⟩
  intro blk
  rw [← slice_map_out hsource.atZero hwrote hsource.page hexact hlength
    (fun off n => hsource.frame_out hwrote hsmall) blk]
  have hptr := blockPtr_eq (h := finalHdr env img files skipComp w)
    (by rw [finalHdr_pageSize hwrote]; exact hsource.pageSize_pos)
    (by rw [finalHdr_pageSize hwrote]; exact hsource.page) blk
  simp only [BootImg.block, BootImg.ptr, loadedImg, hptr]

end Output

/-- The blocks of the source behind its header, with the id and the offsets that go with them. -/
structure Rebuilt (env : Env) (img : BootImg) (h : Header) (image : List UInt8) : Prop where
  length : image.length = img.raw.stop
  header : slice image 0 img.raw.hdrSize = h.raw
  same : img.raw.SameOutside sizeParts h
  sizes : ∀ blk : Block, h.get blk.sizeField = img.raw.get blk.sizeField
  blocks : ∀ blk : Block, slice image (img.raw.blockOff blk) (img.raw.get blk.sizeField) = resized img blk
  id : (img.raw.kind.textOffset .id).isSome →
    h.text .id = (digest env img (h.idInput image 0) ++ zeros 32).take 32

/-- What a plain image must not be for the trip: too long in a part for `sendfile`, beyond 4 GiB where an
offset is kept in 32 bits, or such that new bytes look like a device tree, a loader or an AVB footer. -/
structure Copyable (env : Env) (file : List UInt8) (img : BootImg) : Prop where
  short : Short img
  ramdisk : img.ramdisk.mtk = true → img.raw.blockOff .ramdisk < 2 ^ 32
  kernel : img.kernel.mtk = true → ∀ off, 4 ≤ off → off < 8 →
    ¬ IsDtb env.fdtAccepts (resized img .kernel) off
  loader : img.raw.kind ≠ .pxa → img.raw.kind.isVendor = false →
    bootMagic <+: (env.map file).drop amonetMicroloaderSz → img.raw.stop < 2 ^ 32 ∧
      ∀ h image, Rebuilt env img h image → isAmonet h.raw 0 = false
  small : img.flags.avb1Signed = true → img.raw.stop < 2 ^ 32
  signature : img.flags.avb1Signed = true → ∀ h image, Rebuilt env img h image →
    ¬ avbFooterMagic <:+: env.signPayload image ∧ ∀ b ∈ (env.signPayload image).head?, b = 0x30

section Trip

variable {env : Env} {file : List UInt8} {img : BootImg} {w : Written}
  (hsource : PlainSource env file img) (hcopyable : Copyable env file img)
  (hwrote : Wrote env img (unpackedFiles env img true) true w)

include hsource hcopyable hwrote

theorem PlainSource.zeroed_fd : Zeroed (env.map file) w.out.fd := by
  have hpos := hsource.pageSize_pos
  have hmem := hsource.atZero.mem_eq
  have hspace := hsource.space_le
  have hheader := hsource.header_eq hwrote
  have hpage : wrapper img ++ slice img.mem img.addr img.raw.space
      = [] ++ slice (env.map file) 0 img.raw.space := by
    rw [hsource.atZero.wrapper_eq, hmem, hsource.addr]
  have hlength := hwrote.length_page hspace
  have hstart : Zeroed (env.map file) (wrapper img ++ slice img.mem img.addr img.raw.space) := by
    rw [hpage]
    apply Zeroed.append_slice
    · exact fun i b hb => by cases hb
    · rw [length_slice_of_le (by rw [hsource.addr, hmem] at hspace; exact hspace)]
      rfl
  have hplaces : places img.raw.pageSize img.raw.space
      ((segmentsOf (segmentOf env img (unpackedFiles env img true) true)).map fun seg => seg.2.piece)
        = starts img.raw.space (img.raw.sizes.map (roundUp img.raw.pageSize)) := by
    rw [← hsource.sizes_final_eq hcopyable.short hwrote]
    exact places_segmented hwrote.segmented hpos (fun blk => (hsource.exact hcopyable.short blk).2)
      (fun blk _ => (hsource.exact hcopyable.short blk).1)
  have hfd := hwrote.segmented.run.fd
  rw [hfd]
  apply hstart.foldl_put hpos (by rw [hlength]; omega)
  rw [hlength, Nat.add_sub_cancel_left, hplaces, segmentsOf, List.map_map,
    List.forall₂_map_right_iff]
  apply forall₂_blocks_of rfl
  intro blk
  have hbytes := hsource.bytes_segmentOf hcopyable.short blk
  simp only [Function.comp_apply, Segment.piece, hbytes, hheader, Nat.zero_add,
    hsource.length_block blk]
  rw [BootImg.block, hmem, hsource.ptr_eq]
  rfl

theorem PlainSource.tail_small : img.flags.avb1Signed = true → w.tail < 2 ^ 32 := by
  intro hsigned
  rw [hwrote.tail, hsource.trailer_eq_nil hsigned, List.append_nil,
    hsource.length_fd_eq hcopyable.short hwrote]
  exact hcopyable.small hsigned

theorem PlainSource.slice_image (blk : Block) :
    slice (withHeader env img (unpackedFiles env img true) true w) (img.raw.blockOff blk)
      (img.raw.get blk.sizeField) = resized img blk := by
  have hfinal := hsource.finalBlock_eq hcopyable.short hwrote hcopyable.ramdisk blk
  rw [finalBlock, hsource.blockOff_final hcopyable.short hwrote,
    hsource.get_final hcopyable.short hwrote] at hfinal
  have hraw := length_raw_finalHdr hwrote
  have hroom := hsource.header
  have hspace := img.raw.space_le_blockOff blk
  rw [hsource.withHeader_eq_patch hwrote, slice_patch_of_disjoint (by omega), hfinal]

theorem PlainSource.rebuilt_out (hwrite : writeImg env img (unpackedFiles env img true) true = some w)
    (hsmall : img.raw.stop < 2 ^ 32) :
    Rebuilt env img (finalHdr env img (unpackedFiles env img true) true w)
      (slice (withHeader env img (unpackedFiles env img true) true w) 0 img.raw.stop) := by
  have hpos := hsource.pageSize_pos
  have hshort := hcopyable.short
  have hraw := length_raw_finalHdr hwrote
  have hroom := hsource.header
  have hfd := hsource.length_fd_eq hshort hwrote
  have hdata := hwrote.prefix_fd.length_le
  have hstop : img.raw.space ≤ img.raw.stop :=
    (img.raw.space_le_blockOff .kernel).trans
      ((Nat.le_add_right _ _).trans (blockOff_add_le hpos .kernel))
  have hblocks : ∀ blk : Block,
      slice (slice (withHeader env img (unpackedFiles env img true) true w) 0 img.raw.stop)
        (img.raw.blockOff blk) (img.raw.get blk.sizeField) = resized img blk := by
    intro blk
    rw [slice_slice (blockOff_add_le hpos blk), Nat.zero_add]
    exact hsource.slice_image hcopyable hwrote blk
  refine ⟨?_, ?_, sameOutside_final_of_none hsource.table hwrite rfl, hsource.get_final hshort hwrote,
    hblocks, fun hid => ?_⟩
  · apply length_slice_of_le
    rw [length_withHeader]
    omega
  · rw [slice_slice (by omega), hsource.withHeader_eq_patch hwrote, ← hraw]
    exact slice_patch_self (by rw [length_patched]; omega)
  · have hinput := shaInput_eq_idInput hwrite hwrote hsource.table hpos hsource.space_le
      (fun blk _ => hsource.exact hshort blk)
      ((finalHdr_get hwrote .dtb).trans (hsource.exact hshort .dtb).1).le
      (fun blk _ _ => by
        have hle := blockOff_add_le hpos blk
        rw [hsource.header_eq hwrote, hsource.blockOff_final hshort hwrote]
        omega) (fun _ _ _ _ => rfl)
    have hsized : ∀ blk, (finalHdr env img (unpackedFiles env img true) true w).sizedBlock
        (patched env img (unpackedFiles env img true) true w).1 w.header blk
          = (finalHdr env img (unpackedFiles env img true) true w).sizedBlock
            (slice (withHeader env img (unpackedFiles env img true) true w) 0 img.raw.stop) 0 blk := by
      intro blk
      have hfinal := hsource.finalBlock_eq hshort hwrote hcopyable.ramdisk blk
      rw [finalBlock] at hfinal
      rw [Header.sizedBlock, Header.sizedBlock, hsource.header_eq hwrote, Nat.zero_add, hfinal,
        hsource.blockOff_final hshort hwrote, hsource.get_final hshort hwrote, hblocks]
    rw [text_final hid hwrote, hinput]
    simp only [Header.idInput, hsized]

theorem PlainSource.byte_out (hi : 4032 ≤ i)
    (hlast : img.raw.stop ≤ i + avbFooterSize) (hstop : i < img.raw.stop)
    (hb : (env.map (signImg env img w
      (withHeader env img (unpackedFiles env img true) true w)))[i]? = some b) :
    b = 0 ∨ (env.map file)[i]? = some b := by
  have hsmall := hsource.tail_small hcopyable hwrote
  have hfd := hsource.length_fd_eq hcopyable.short hwrote
  have hout := length_fd_le_signImg hwrote
  have hpos := hsource.pageSize_pos
  have hhdr : mtkHdrSize = 512 := rfl
  have hsize : avbFooterSize = 64 := rfl
  have hkernelEnd : img.raw.space + img.raw.get .kernelSize ≤ img.raw.stop :=
    blockOff_add_le hpos .kernel
  have hramdiskEnd : img.raw.blockOff .ramdisk + img.raw.get .ramdiskSize ≤ img.raw.stop :=
    blockOff_add_le hpos .ramdisk
  have hsame : slice (env.map (signImg env img w
      (withHeader env img (unpackedFiles env img true) true w))) i 1 = slice w.out.fd i 1 := by
    have hmap : signImg env img w (withHeader env img (unpackedFiles env img true) true w)
        <+: env.map (signImg env img w (withHeader env img (unpackedFiles env img true) true w)) :=
      List.prefix_append _ _
    have hheader := hdrSize_le img.raw.kind
    have hraw := length_raw_finalHdr hwrote
    rw [Header.hdrSize] at hraw
    rw [slice_of_isPrefix hmap (by omega), slice_signImg_withHeader hwrote hsmall (by omega),
      hsource.withHeader_eq_patch hwrote, slice_patch_of_disjoint (by omega), hsource.fst_patched_eq,
      slice_patchMtks, slice_of_isPrefix hwrote.prefix_fd (by omega)]
    · intro hk
      have hlt := hsource.kernelMtk hk
      have hend : img.kernel.dtb.getD (img.raw.get .kernelSize) ≤ img.raw.get .kernelSize :=
        hsource.dtb_le
      rw [hwrote.place_kernel_eq hsource.space_le hpos hsource.page, hsource.header_eq hwrote]
      omega
    · intro hr
      have hlt := hsource.ramdiskMtk hr
      rw [hsource.place_ramdisk_eq hcopyable.short hwrote hcopyable.ramdisk hr]
      omega
  rw [getElem?_of_slice hsame] at hb
  exact hsource.zeroed_fd hcopyable hwrote i b hb

omit hcopyable in
theorem PlainSource.length_le_out :
    file.length ≤ (signImg env img w
      (withHeader env img (unpackedFiles env img true) true w)).length := by
  have hle := length_le_signImg env img w (withHeader env img (unpackedFiles env img true) true w)
  rw [length_withHeader] at hle
  have hchromeos : img.flags.chromeos = false :=
    hsource.atZero.flags_eq Flags.chromeos fun _ => ⟨rfl, rfl, rfl, rfl⟩
  obtain ⟨vbmeta, hdata, -⟩ := hwrote.data
  have hlength := congrArg List.length hdata
  rw [length_padToSource, hchromeos, if_neg Bool.false_ne_true, hsource.atZero.parsed.mapSize_eq]
    at hlength
  omega

omit hsource hcopyable hwrote in
theorem trailer_clear (img : BootImg) :
    ¬ avbFooterMagic <:+: trailer img ∧ ∀ b ∈ (trailer img).head?, b ∉ avbFooterMagic.tail := by
  have hbyte : 0x56 ∉ trailer img := by
    rw [trailer]
    split
    · split <;> decide
    · split <;> decide
  have hhead : (trailer img).head? = some 0x53 ∨ (trailer img).head? = some 0x41 ∨
      (trailer img).head? = none := by
    rw [trailer]
    split
    · split <;> decide
    · split <;> decide
  constructor
  · exact fun hmagic => hbyte (hmagic.subset (by decide))
  · intro b hb
    rcases hhead with h | h | h
    · obtain rfl : 0x53 = b := Option.some.inj (h.symm.trans hb)
      decide
    · obtain rfl : 0x41 = b := Option.some.inj (h.symm.trans hb)
      decide
    · rw [h] at hb
      cases hb

theorem PlainSource.back_clear (hwrite : writeImg env img (unpackedFiles env img true) true = some w) :
    ¬ avbFooterMagic <:+: trailer img ++ newSignature env img (unpackedFiles env img true) true w ∧
      ∀ b ∈ (trailer img ++ newSignature env img (unpackedFiles env img true) true w).head?,
        b ∉ avbFooterMagic.tail := by
  by_cases hsigned : img.flags.avb1Signed = true
  · have hsmall := hcopyable.small hsigned
    have htail := hsource.tail_small hcopyable hwrote hsigned
    have hsize : aospImgSize w = img.raw.stop := by
      have hfd := hsource.length_fd_eq hcopyable.short hwrote
      rw [← List.append_nil w.out.fd, ← hsource.trailer_eq_nil hsigned, ← hwrote.tail] at hfd
      rw [aospImgSize, hsource.header_eq hwrote]
      omega
    obtain ⟨hmissing, hhead⟩ := hcopyable.signature hsigned _ _
      (hsource.rebuilt_out hcopyable hwrote hwrite hsmall)
    rw [← hsize, ← hsource.header_eq hwrote] at hmissing hhead
    rw [hsource.trailer_eq_nil hsigned, List.nil_append, newSignature, if_pos hsigned]
    refine ⟨hmissing, fun b hb => ?_⟩
    rw [hhead b hb]
    decide
  · rw [newSignature_of_unsigned (Bool.eq_false_of_not_eq_true hsigned), List.append_nil]
    exact trailer_clear img

theorem PlainSource.parseTail_out (hwrite : writeImg env img (unpackedFiles env img true) true = some w)
    (flags : Flags) :
    ∃ tail, parseTail env (env.map (signImg env img w
      (withHeader env img (unpackedFiles env img true) true w))) 0 img.raw.stop flags = some tail := by
  have hparsed := hsource.atZero.parsed
  have hoff : img.off = img.raw.stop := (hparsed.offs_eq hsource.page).2
  have hstop : img.raw.stop ≤ (env.map file).length := by
    have hle := hparsed.off_le hsource.page
    rwa [hoff, hsource.addr, Nat.zero_add] at hle
  have hfd := hsource.length_fd_eq hcopyable.short hwrote
  have hout := length_fd_le_signImg hwrote
  by_cases hmore : img.raw.stop < (env.map (signImg env img w
      (withHeader env img (unpackedFiles env img true) true w))).length
  · obtain ⟨hmissing, hhead⟩ := hsource.back_clear hcopyable hwrote hwrite
    obtain ⟨k, hdrop⟩ := hsource.drop_out hwrote (hsource.tail_small hcopyable hwrote)
    have hback : ∃ k', (env.map (signImg env img w
        (withHeader env img (unpackedFiles env img true) true w))).drop img.raw.stop
          = trailer img ++ newSignature env img (unpackedFiles env img true) true w ++ zeros k' := by
      rw [Env.map, pad, List.drop_append_of_le_length (by omega), ← hfd, hdrop, List.append_assoc,
        zeros_append_zeros]
      exact ⟨_, rfl⟩
    obtain ⟨k', hback⟩ := hback
    have hnone : (env.map file).length ≤ img.raw.stop ∨
        slice (env.map file) ((env.map file).length - avbFooterSize) 4 ≠ avbFooterMagic := by
      have htail := (parseTail_of_footer_none hparsed.tail hsource.footer).2.1
      rw [hoff, hsource.addr, Nat.zero_add] at htail
      exact htail.imp_left Eq.ge
    have hle : (env.map file).length ≤ (env.map (signImg env img w
        (withHeader env img (unpackedFiles env img true) true w))).length := by
      rw [env.length_map, env.length_map]
      exact roundUp_mono (hsource.length_le_out hwrote)
    exact parseTail_of_ne (by rwa [Nat.zero_add]) (slice_ne_footer env.hostPage_ge (env.dvd_length_map _)
      (env.dvd_length_map _) hle hstop hmore hback (fun i b => hsource.byte_out hcopyable hwrote) hnone
      hmissing hhead)
  · have hmap := env.length_le_map (signImg env img w
      (withHeader env img (unpackedFiles env img true) true w))
    exact ⟨_, parseTail_nil (by omega) _⟩

end Trip

section Single

variable {blk : Block} {bytes : List UInt8} (hblk : blk = .second ∨ blk = .recoveryDtbo)
  (hlt : bytes.length < 2 ^ 32)

include hblk hlt

theorem plainSource_single :
    PlainSource sampleEnv (assemble (v1Of (single blk bytes)) (single blk bytes))
      (assembled (v1Of (single blk bytes)) (single blk bytes) {} {} .unknown) where
  loaded := load_single hblk hlt
  addr := rfl
  amonet := rfl
  footer := rfl
  table := get_eq_zero rfl
  page := by
    rw [show (assembled (v1Of (single blk bytes)) _ _ _ _).raw.pageSize = 4096 from
      pageSize_v1Header _ _ _ _]
    decide
  header := by
    rw [show (assembled (v1Of (single blk bytes)) _ _ _ _).raw.space = 4096 from
      space_v1Header _ _ _ _]
    exact show 1648 ≤ 4096 by decide
  zImage := rfl
  kernelMtk := nofun
  ramdiskMtk := nofun

theorem no_loader_single :
    ¬ bootMagic <+: (sampleEnv.map (assemble (v1Of (single blk bytes)) (single blk bytes))).drop
      amonetMicroloaderSz := by
  have hraw := (plainSource_single hblk hlt).atZero.raw_eq
  have hslice : slice (sampleEnv.map (assemble (v1Of (single blk bytes)) (single blk bytes)))
      amonetMicroloaderSz 8 = zeros 8 := by
    have hin : 1024 + 8 ≤ (assembled (v1Of (single blk bytes)) (single blk bytes) {} {}
        .unknown).raw.hdrSize := show 1024 + 8 ≤ 1648 by decide
    rw [show amonetMicroloaderSz = 0 + 1024 from rfl, ← slice_slice hin, hraw]
    exact slice_v1Header_zeros _ _ _ _ (by decide) (by decide)
  rw [prefix_drop_iff, length_bootMagic, hslice]
  decide

theorem copyable_single (hshort : bytes.length ≤ sendfileMax) :
    Copyable sampleEnv (assemble (v1Of (single blk bytes)) (single blk bytes))
      (assembled (v1Of (single blk bytes)) (single blk bytes) {} {} .unknown) where
  short :=
    { block := by
        intro b _
        have hget : (v1Of (single blk bytes)).get b.sizeField = (single blk bytes b).length :=
          get_v1Of (v1Blocks_single hblk hlt) b
        rw [assembled, hget, single]
        split
        · exact hshort
        · exact Nat.zero_le _
      kernelDtb := Nat.zero_le _ }
  ramdisk := nofun
  kernel := nofun
  loader _ _ hmagic := absurd hmagic (no_loader_single hblk hlt)
  small := nofun
  signature := nofun

end Single

def longBlocks : Block → List UInt8 := single .second (zeros sendfileMax ++ [1])

def longFile : List UInt8 := assemble (v1Of longBlocks) longBlocks

def longImg : BootImg := assembled (v1Of longBlocks) longBlocks {} {} .unknown

theorem length_longSecond : (zeros sendfileMax ++ [1]).length = 0x7ffff001 := by
  rw [List.length_append, length_zeros]
  rfl

theorem plainSource_longImg : PlainSource sampleEnv longFile longImg :=
  plainSource_single (.inl rfl) (by rw [length_longSecond]; decide)

theorem get_longImg (blk : Block) : longImg.raw.get blk.sizeField = (longBlocks blk).length :=
  get_v1Of (v1Blocks_single (.inl rfl) (by rw [length_longSecond]; decide)) blk

theorem block_longImg : longImg.block .second = zeros sendfileMax ++ [1] := by
  have hblocks : V1Blocks longBlocks :=
    v1Blocks_single (.inl rfl) (by rw [length_longSecond]; decide)
  rw [BootImg.block, plainSource_longImg.ptr_eq]
  apply slice_assemble
  · exact plainSource_longImg.header
  · exact plainSource_longImg.pageSize_pos
  · exact fun blk => (get_v1Of hblocks blk).symm

theorem unpackedFiles_longImg (skipDecomp : Bool) :
    unpackedFiles sampleEnv longImg skipDecomp = { second := some (zeros sendfileMax ++ [1]) } := by
  have hdump : ∀ blk, blk ≠ .second →
      dump (longImg.raw.get blk.sizeField) (longImg.block blk) none = none := by
    intro blk hblk
    rw [dump_eq_none, get_longImg, longBlocks, single, if_neg hblk]
    rfl
  have hsecond : dump (longImg.raw.get Block.second.sizeField) (longImg.block .second) none
      = some (zeros sendfileMax ++ [1]) := by
    rw [dump, if_neg (by rw [get_longImg, longBlocks, single, if_pos rfl, length_longSecond]; decide),
      block_longImg]
  have hpart : ∀ bytes, dumpPart sampleEnv skipDecomp .unknown 0 bytes none = none := by
    intro bytes
    rw [dumpPart]
    split <;> rfl
  have hkernel := hpart longImg.kernelBytes
  have hramdisk := hpart longImg.ramdiskBytes
  have hextra := hpart (longImg.block .extra)
  rw [← show longImg.raw.get .extraSize = 0 from get_eq_zero rfl] at hextra
  have hkernelDtb : dump longImg.kernelDtb.length longImg.kernelDtb none = none := rfl
  rw [unpackedFiles, Files.mk.injEq]
  exact ⟨rfl, hkernel, hkernelDtb, hramdisk, hsecond, hextra, hdump .recoveryDtbo (by decide),
    hdump .dtb (by decide), hdump .bootconfig (by decide), rfl⟩

section Long

variable {skipComp : Bool} {w : Written}
  (hwrote : Wrote sampleEnv longImg { second := some (zeros sendfileMax ++ [1]) } skipComp w)

include hwrote

theorem zeroed_longImg : Zeroed (slice longImg.mem longImg.addr longImg.raw.space) w.out.fd := by
  rw [hwrote.run.fd, plainSegments_eq, List.map_map]
  apply Zeroed.foldl_put_zeros
  · exact fun i b hb => .inr hb
  · intro x hx
    obtain ⟨blk, -, rfl⟩ := List.mem_map.1 hx
    cases blk with
    | second => exact ⟨sendfileMax, List.take_left' (length_zeros _)⟩
    | signature =>
        have hsize : longImg.raw.get .signatureSize = 0 := get_eq_zero rfl
        refine ⟨0, ?_⟩
        simp only [Function.comp_apply, segmentOf, Segment.piece, signatureSegment, hsize, ne_eq,
          not_true_eq_false, if_false]
        rfl
    | kernel | ramdisk | extra | recoveryDtbo | dtb | vendorRamdiskTable | bootconfig =>
        exact ⟨0, rfl⟩

theorem drop_fd_longImg (hi : 4096 ≤ i) (hb : w.out.fd[i]? = some b) : b = 0 := by
  rcases zeroed_longImg hwrote i b hb with hzero | hpage
  · exact hzero
  · have hspace : longImg.raw.space = 4096 := space_v1Header _ _ _ _
    rw [getElem?_slice, if_neg (by omega)] at hpage
    cases hpage

theorem zero_out_longImg (hi : 4096 ≤ i) (hb : (signImg sampleEnv longImg w
      (withHeader sampleEnv longImg { second := some (zeros sendfileMax ++ [1]) } skipComp w))[i]?
        = some b) : b = 0 := by
  have hspace : longImg.raw.space = 4096 := space_v1Header _ _ _ _
  rcases Nat.lt_or_ge i w.out.fd.length with hlt | hge
  · have hpatched : (patched sampleEnv longImg { second := some (zeros sendfileMax ++ [1]) } skipComp
        w).1 = w.data := rfl
    have hsame : slice (signImg sampleEnv longImg w (withHeader sampleEnv longImg
          { second := some (zeros sendfileMax ++ [1]) } skipComp w)) i 1
        = slice (patched sampleEnv longImg { second := some (zeros sendfileMax ++ [1]) } skipComp
          w).1 i 1 :=
      plainSource_longImg.frame_out hwrote nofun (by omega) hlt
    rw [hpatched, slice_of_isPrefix hwrote.prefix_fd hlt] at hsame
    rw [getElem?_of_slice hsame] at hb
    exact drop_fd_longImg hwrote hi hb
  · obtain ⟨k, hdrop⟩ := plainSource_longImg.drop_out hwrote nofun
    rw [newSignature_of_unsigned rfl, List.append_nil, show trailer longImg = [] from rfl,
      List.nil_append] at hdrop
    rw [← Nat.add_sub_cancel' hge, ← List.getElem?_drop, hdrop] at hb
    exact List.eq_of_mem_replicate (List.mem_of_getElem? hb)

end Long

theorem block_ne_longImg {skip : Bool} {out : List UInt8} {img' : BootImg}
    (hrepack : repack sampleEnv longFile (unpackedFiles sampleEnv longImg skip) skip = some out)
    (hload : load sampleEnv out = some img') : img'.block .second ≠ zeros sendfileMax ++ [1] := by
  intro hblock
  have hsource := plainSource_longImg
  obtain ⟨w, hwrite, hwrote⟩ : ∃ w, writeImg sampleEnv longImg
      { second := some (zeros sendfileMax ++ [1]) } skip = some w ∧
        Wrote sampleEnv longImg { second := some (zeros sendfileMax ++ [1]) } skip w :=
    writeImg_wrote hsource.table hsource.pageSize_pos hsource.page
  rw [unpackedFiles_longImg, hsource.repack_eq hwrite, Option.some.injEq] at hrepack
  obtain ⟨flags, hparsed, -⟩ := load_parsed hload
  have hlast : (img'.block .second)[sendfileMax]? = some 1 := by
    rw [hblock]
    rw [List.getElem?_append_right (by rw [length_zeros]), length_zeros, Nat.sub_self]
    rfl
  have hbyte : (sampleEnv.map out)[img'.ptr .second + sendfileMax]? = some 1 := by
    rw [BootImg.block, getElem?_slice, hparsed.mem_eq] at hlast
    split at hlast
    · exact hlast
    · cases hlast
  have hlong : 4096 ≤ img'.ptr .second + sendfileMax := (show 4096 ≤ sendfileMax by decide).trans
    (Nat.le_add_left _ _)
  rw [Env.map, pad] at hbyte
  have hzero : (1 : UInt8) = 0 := by
    rcases Nat.lt_or_ge (img'.ptr .second + sendfileMax) out.length with hlt | hge
    · rw [List.getElem?_append_left hlt, ← hrepack] at hbyte
      exact zero_out_longImg hwrote hlong hbyte
    · rw [List.getElem?_append_right hge] at hbyte
      exact List.eq_of_mem_replicate (List.mem_of_getElem? hbyte)
  exact absurd hzero (by decide)

end MagiskNative.Boot
