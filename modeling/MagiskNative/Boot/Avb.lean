import MagiskNative.Boot.DescriptorWalk
import MagiskNative.Boot.Repacked

/-!
# AVB structures in the output

The vbmeta blob is copied behind the blocks, and the footer goes to the last 64 bytes of the mapped
output. Nothing reserves room for the footer: it is the padding to the old length that keeps it off
the blob.
-/

namespace MagiskNative.Boot

open Bytes Layout

variable {mem : List UInt8} {off vbmeta : Nat}

section

variable {env : Env} {img : BootImg} {files : Files} {skipComp : Bool} {w : Written}

theorem parseTail_vbmeta {addr : Nat} {flags : Flags} {tail : TailInfo}
    (htail : parseTail env mem addr off flags = some tail) (hvbmeta : tail.vbmeta = some vbmeta) :
    tail.avbFooter = some (mem.length - avbFooterSize) ∧ tail.flags.avb = true ∧
      slice mem (mem.length - avbFooterSize) 4 = avbFooterMagic ∧
      vbmeta = (addr + bigEndian mem (mem.length - avbFooterSize + 20) 8) % 2 ^ 64 ∧
      vbmeta + 4 ≤ mem.length ∧ slice mem vbmeta 4 = avbMagic := by
  rcases parseTail_cases htail with ⟨rfl, -⟩ | ⟨env', payload, rest, hfooter⟩
  · cases hvbmeta
  · simp only [parseFooter] at hfooter
    split at hfooter
    · rename_i hmagic
      split at hfooter
      · cases hfooter
      · rename_i hlength
        split at hfooter
        · rename_i hmeta
          cases hfooter
          cases hvbmeta
          exact ⟨rfl, rfl, hmagic, rfl, Nat.not_lt.1 hlength, hmeta⟩
        · cases hfooter
          cases hvbmeta
    · cases hfooter
      cases hvbmeta

theorem vbmeta_of_load {file : List UInt8} (hload : load env file = some img)
    (hvbmeta : img.vbmeta = some vbmeta) :
    img.avbFooter = some (img.mem.length - avbFooterSize) ∧ img.flags.avb = true ∧
      slice img.mem (img.mem.length - avbFooterSize) 4 = avbFooterMagic ∧
      vbmeta = (img.addr + bigEndian img.mem (img.mem.length - avbFooterSize + 20) 8) % 2 ^ 64 ∧
      vbmeta + 4 ≤ img.mem.length ∧ slice img.mem vbmeta 4 = avbMagic := by
  obtain ⟨flags, hparsed, -⟩ := load_parsed hload
  rw [hparsed.mem_eq]
  exact parseTail_vbmeta hparsed.tail hvbmeta

theorem parseTail_avb {addr : Nat} (flags : Flags) (htail : addr + off < mem.length)
    (hmagic : slice mem (mem.length - avbFooterSize) 4 = avbFooterMagic)
    (hoffset : (addr + bigEndian mem (mem.length - avbFooterSize + 20) 8) % 2 ^ 64 = vbmeta)
    (hle : vbmeta + 4 ≤ mem.length) (hvbmeta : slice mem vbmeta 4 = avbMagic) :
    parseTail env mem addr off flags = some
      { flags := { tailFlags env (slice mem addr off) (mem.drop (addr + off)) flags with avb := true }
        avbFooter := some (mem.length - avbFooterSize)
        vbmeta := some vbmeta } := by
  rw [parseTail_of_lt htail, parseFooter]
  simp only [if_pos hmagic, hoffset]
  rw [if_neg (by omega), if_pos hvbmeta]

def alignedEnd (page header n : Nat) : Nat := n + (roundUp page (n - header) - (n - header))

def vbmetaBlob (img : BootImg) (vbmeta : Nat) : List UInt8 := slice img.mem vbmeta (vbmetaSize img)

theorem writeImg_vbmeta (hwrite : writeImg env img files skipComp = some w)
    (hvbmeta : img.vbmeta = some vbmeta) :
    ∃ fd, w.vbmeta = fd.length ∧ w.data = padToSource img (fd ++ vbmetaBlob img vbmeta) ∧
      w.out.fd ++ trailer img <+: fd ∧
      w.vbmeta = alignedEnd 4096 w.header (alignedEnd img.raw.pageSize w.header w.tail) := by
  simp only [writeImg, Option.bind_eq_bind, Option.bind_eq_some_iff] at hwrite
  obtain ⟨space, -, segs, -, out, -, fd, halign, ⟨fd', off⟩, hblob, hw⟩ := hwrite
  simp only [writeVbmeta, hvbmeta, Option.bind_eq_bind, Option.bind_eq_some_iff, fileAlignWith]
    at halign hblob
  obtain ⟨fd'', halign', hblob⟩ := hblob
  split at halign
  · cases halign
    cases hblob
    cases hw
    split at halign'
    · cases halign'
      refine ⟨_, rfl, rfl, (List.prefix_append _ _).trans (List.prefix_append _ _), ?_⟩
      simp only [alignedEnd, List.length_append, length_zeros]
    · cases halign'
  · cases halign

theorem alignedEnd_add {page : Nat} (hpos : 0 < page) (header n : Nat) :
    alignedEnd page header (header + n) = header + roundUp page n := by
  have hle := le_roundUp hpos n
  rw [alignedEnd, Nat.add_sub_cancel_left]
  omega

/-- How many bytes a component takes in the new image, and whether its last page is filled up. -/
def componentSize (seg : Block × Segment) : Nat × Bool := (seg.2.bytes.length, seg.2.aligned)

variable (env img files skipComp) in
def componentSizes : Option (List (Nat × Bool)) :=
  (segments env img files skipComp).map (List.map componentSize)

variable (img) in
/-- The end of the image and its trailer behind components of the given sizes, counted from the header. -/
def imageEnd (sizes : List (Nat × Bool)) : Nat :=
  sizes.foldl
    (fun pos size => if size.2 then roundUp img.raw.pageSize (pos + size.1) else pos + size.1) img.raw.space
    + (trailer img).length

variable (img) in
/-- The place of the vbmeta blob behind an image that ends at `stop`. -/
def vbmetaPlace (stop : Nat) : Nat :=
  (wrapper img).length + roundUp 4096 (roundUp img.raw.pageSize stop)

variable (img) in
def outputLength (stop : Nat) : Nat :=
  let length := match img.vbmeta with
    | some vbmeta => vbmetaPlace img stop + (vbmetaBlob img vbmeta).length
    | none => (wrapper img).length + roundUp img.raw.pageSize stop
  if img.flags.chromeos then length else max length img.mapSize

theorem length_padToSource (fd : List UInt8) :
    (padToSource img fd).length
      = if img.flags.chromeos then fd.length else max fd.length img.mapSize := by
  rw [padToSource]
  split
  · rfl
  · rw [List.length_append, length_zeros]
    omega

theorem WroteSegments.tail_eq {segs : List (Block × Segment)} (hwrote : WroteSegments env img files segs w)
    (hspace : img.addr + img.raw.space ≤ img.mem.length) (hpos : 0 < img.raw.pageSize) :
    w.tail = w.header + imageEnd img (segs.map componentSize) := by
  rw [hwrote.tail, List.length_append, hwrote.length_fd hspace hpos, imageEnd, List.foldl_map,
    List.foldl_map, Nat.add_assoc]
  rfl

section Layout

variable {file : List UInt8} (hload : load env file = some img)
  (hwrite : writeImg env img files skipComp = some w)

include hload hwrite

theorem tail_eq_imageEnd {sizes : List (Nat × Bool)}
    (hsizes : componentSizes env img files skipComp = some sizes) :
    w.tail = w.header + imageEnd img sizes := by
  obtain ⟨flags, hparsed, -⟩ := load_parsed hload
  obtain ⟨segs, hsegs, hwrote⟩ := wroteSegments_of_writeImg hparsed.pageSize_pos hwrite
  rw [componentSizes, hsegs, Option.map_some, Option.some.injEq] at hsizes
  rw [hwrote.tail_eq (hparsed.space_le (pageSize_lt_of_writeImg hwrite)) hparsed.pageSize_pos, hsizes]

/-- **Layout of the output.** The end of the image decides where the blob goes and how long the output is. -/
theorem layout_of_tail {stop : Nat} (htail : w.tail = w.header + stop) :
    w.data.length = outputLength img stop ∧
      ∀ vbmeta, img.vbmeta = some vbmeta → w.vbmeta = vbmetaPlace img stop := by
  obtain ⟨flags, hparsed, -⟩ := load_parsed hload
  have hpos := hparsed.pageSize_pos
  obtain ⟨segs, -, hwrote⟩ := wroteSegments_of_writeImg hpos hwrite
  have hheader := hwrote.header
  have hplace : ∀ vbmeta, img.vbmeta = some vbmeta → w.vbmeta = vbmetaPlace img stop := by
    intro vbmeta hvbmeta
    obtain ⟨-, -, -, -, hend⟩ := writeImg_vbmeta hwrite hvbmeta
    rw [hend, htail, alignedEnd_add hpos, alignedEnd_add (by decide), hheader, vbmetaPlace]
  refine ⟨?_, hplace⟩
  rw [outputLength]
  cases hvbmeta : img.vbmeta with
  | none =>
      obtain ⟨vbmeta, hdata, hnone⟩ := hwrote.data
      have hlength := alignedEnd_add hpos w.header stop
      rw [← htail, alignedEnd, hheader] at hlength
      rw [hdata, hnone hvbmeta, List.append_nil, length_padToSource, List.length_append, ← hwrote.tail,
        length_zeros, hheader, hlength]
  | some vbmeta =>
      obtain ⟨fd, hoff, hdata, -, -⟩ := writeImg_vbmeta hwrite hvbmeta
      rw [hdata, length_padToSource, List.length_append, ← hoff, hplace vbmeta hvbmeta]

end Layout

end

theorem bigEndian_congr {mem' : List UInt8} {off' k : Nat}
    (hslice : slice mem off k = slice mem' off' k) : bigEndian mem off k = bigEndian mem' off' k := by
  rw [bigEndian, bigEndian, hslice]

section Walk

variable {blob mem : List UInt8} {base size' last : Nat}

/-- A walk that ends inside of the blob ends in any memory that has the blob, and what it finds there is
not in front of the blob. The induction is on the rounds; a pointer into the memory is the one into the
blob and `base`, in 64 bits. -/
theorem exists_syncDescriptor (size : Nat) (hmem : slice mem base blob.length = blob)
    (hin : base + blob.length ≤ mem.length) (hsmall : base + blob.length < 2 ^ 64) (hlast : last < 2 ^ 64)
    {rounds rounds' ptr : Nat} (hrounds : rounds ≤ rounds') (hptr : ptr < 2 ^ 64)
    (hsome : (syncDescriptor blob size' last rounds ptr).isSome) :
    ∃ found, syncDescriptor mem size ((base + last) % 2 ^ 64) rounds' ((base + ptr) % 2 ^ 64) = some found ∧
      ∀ off ∈ found, base ≤ off := by
  have hword : ∀ a, a + 8 ≤ blob.length → slice mem (base + a) 8 = slice blob a 8 := by
    intro a ha
    rw [← slice_slice ha, hmem]
  induction rounds generalizing rounds' ptr with
  | zero => cases hsome
  | succ rounds ih =>
      obtain ⟨rounds', rfl⟩ : ∃ r, rounds' = r + 1 := ⟨rounds' - 1, by omega⟩
      rw [syncDescriptor] at hsome ⊢
      by_cases hend : ptr = last
      · rw [if_pos (by rw [hend])]
        exact ⟨none, rfl, fun off hoff => by cases hoff⟩
      rw [if_neg hend] at hsome
      rw [if_neg (by omega)]
      by_cases hread : blob.length < ptr + 16
      · rw [if_pos hread] at hsome
        cases hsome
      have habs : (base + ptr) % 2 ^ 64 = base + ptr := Nat.mod_eq_of_lt (by omega)
      have hslice := hword (ptr + 8) (by omega)
      rw [← Nat.add_assoc] at hslice
      have htag : bigEndian mem (base + ptr) 8 = bigEndian blob ptr 8 :=
        bigEndian_congr (hword ptr (by omega))
      have hbody : bigEndian mem (base + ptr + 8) 8 = bigEndian blob (ptr + 8) 8 := bigEndian_congr hslice
      rw [if_neg hread] at hsome
      rw [habs, if_neg (by omega)]
      simp only [htag, hbody, hslice]
      by_cases hhash : bigEndian blob ptr 8 = 2
      · simp only [hhash, if_true]
        split
        · exact ⟨none, rfl, fun off hoff => by cases hoff⟩
        · split
          · exact ⟨none, rfl, fun off hoff => by cases hoff⟩
          · exact ⟨_, rfl, by rintro off ⟨⟩; omega⟩
      · simp only [hhash, if_false] at hsome ⊢
        by_cases hodd : ofLe (slice blob (ptr + 8) 8) % 8 ≠ 0
        · rw [if_pos hodd]
          exact ⟨none, rfl, fun off hoff => by cases hoff⟩
        · rw [if_neg hodd] at hsome ⊢
          have hnext := ih (show rounds ≤ rounds' by omega) (Nat.mod_lt _ (by decide)) hsome
          rwa [Nat.add_mod_mod, ← Nat.add_assoc, ← Nat.add_assoc] at hnext

end Walk

/-- A blob with the flags that it gets in the output. -/
def flagged (env : Env) (blob : List UInt8) : List UInt8 :=
  if env.patchVbmetaFlag then patch blob 120 (beBytes 4 3) else blob

/-- The loop over the descriptors ends without leaving the blob. -/
def WalkEnds (env : Env) (blob : List UInt8) : Prop :=
  124 ≤ blob.length ∧
    (syncDescriptor (flagged env blob) blob.length (descriptorsStop (flagged env blob) 0 % 2 ^ 64)
      (blob.length + 1) (firstDescriptor (flagged env blob) 0)).isSome

theorem length_flagged (env : Env) (blob : List UInt8) : (flagged env blob).length = blob.length := by
  rw [flagged]
  split
  · rw [length_patch]
  · rfl

section Patches

variable {env : Env} {img : BootImg} {w : Written} {footer : Nat} {data blob : List UInt8}

def patchFooter (env : Env) (img : BootImg) (w : Written) (footer : Nat) (data : List UInt8) :
    List UInt8 :=
  let newFooter := data.length - avbFooterSize
  let data := patch data newFooter (slice img.mem footer avbFooterSize)
  let data := patch data (newFooter + 12) (beBytes 8 (aospImgSize w))
  let data := patch data (newFooter + 20) (beBytes 8 (w.vbmeta % 2 ^ 32))
  if env.patchVbmetaFlag then patch data (w.vbmeta % 2 ^ 32 + 120) (beBytes 4 3) else data

@[simp] theorem length_patchFooter :
    (patchFooter env img w footer data).length = data.length := by
  rw [patchFooter]
  split <;> simp only [length_patch]

theorem slice_patchFooter {n : Nat} (hoff : off + n ≤ data.length - avbFooterSize)
    (hflags : off + n ≤ w.vbmeta % 2 ^ 32 + 120 ∨ w.vbmeta % 2 ^ 32 + 124 ≤ off) :
    slice (patchFooter env img w footer data) off n = slice data off n := by
  have hfooter : ∀ at' new, data.length - avbFooterSize ≤ at' → ∀ data' : List UInt8,
      slice (patch data' at' new) off n = slice data' off n := by
    intro at' new hat data'
    apply slice_patch_of_disjoint
    omega
  rw [patchFooter]
  split
  · rw [slice_patch_of_disjoint (by rw [length_beBytes]; omega), hfooter _ _ (by omega),
      hfooter _ _ (by omega), hfooter _ _ le_rfl]
  · rw [hfooter _ _ (by omega), hfooter _ _ (by omega), hfooter _ _ le_rfl]

theorem slice_patchFooter_blob (hblob : slice data w.vbmeta blob.length = blob)
    (hlt : w.vbmeta < 2 ^ 32) (hlength : 124 ≤ blob.length)
    (hroom : w.vbmeta + blob.length + avbFooterSize ≤ data.length) :
    slice (patchFooter env img w footer data) w.vbmeta blob.length = flagged env blob := by
  have hfooter : ∀ at' new, data.length - avbFooterSize ≤ at' → ∀ data' : List UInt8,
      slice (patch data' at' new) w.vbmeta blob.length = slice data' w.vbmeta blob.length := by
    intro at' new hat data'
    apply slice_patch_of_disjoint
    omega
  rw [patchFooter, flagged, Nat.mod_eq_of_lt hlt]
  split
  · rw [slice_patch_inside (by rw [length_beBytes]; omega), hfooter _ _ (by omega),
      hfooter _ _ (by omega), hfooter _ _ le_rfl, hblob]
  · rw [hfooter _ _ (by omega), hfooter _ _ (by omega), hfooter _ _ le_rfl, hblob]

/-- The patches of the AVB structures change nothing in front of the blob. -/
theorem patchAvb_frame (hfooter : img.avbFooter = some footer)
    (hvbmeta : img.vbmeta = some vbmeta) (hlt : w.vbmeta < 2 ^ 32) (hsmall : data.length < 2 ^ 63)
    (hblob : slice data w.vbmeta blob.length = blob)
    (hroom : w.vbmeta + blob.length + avbFooterSize ≤ data.length) (hwalk : WalkEnds env blob) :
    ∃ out, patchAvb env img w data = some out ∧ out.length = data.length ∧
      ∀ off n, off + n ≤ w.vbmeta → slice out off n = slice data off n := by
  obtain ⟨hlength, hsome⟩ := hwalk
  have hfooterSize : avbFooterSize = 64 := rfl
  have hpre : patchFooter env img w footer data <+: env.map (patchFooter env img w footer data) :=
    List.prefix_append _ _
  have hmem : slice (env.map (patchFooter env img w footer data)) w.vbmeta (flagged env blob).length
      = flagged env blob := by
    rw [length_flagged, slice_of_isPrefix hpre (by rw [length_patchFooter]; omega),
      slice_patchFooter_blob hblob hlt hlength hroom]
  have hin := hpre.length_le
  rw [length_patchFooter] at hin
  have hword : ∀ a, a + 8 ≤ 124 → bigEndian (env.map (patchFooter env img w footer data)) (w.vbmeta + a) 8
      = bigEndian (flagged env blob) (0 + a) 8 := by
    intro a ha
    apply bigEndian_congr
    rw [← slice_slice (n := (flagged env blob).length) (by rw [length_flagged]; omega), hmem, Nat.zero_add]
  have hfirst : firstDescriptor (env.map (patchFooter env img w footer data)) w.vbmeta
      = (w.vbmeta + firstDescriptor (flagged env blob) 0) % 2 ^ 64 := by
    rw [firstDescriptor, firstDescriptor, hword 12 (by decide), hword 96 (by decide)]
    omega
  have hstop : descriptorsStop (env.map (patchFooter env img w footer data)) w.vbmeta % 2 ^ 64
      = (w.vbmeta + descriptorsStop (flagged env blob) 0 % 2 ^ 64) % 2 ^ 64 := by
    rw [descriptorsStop, descriptorsStop, descriptorsSize, descriptorsSize, hfirst, hword 104 (by decide)]
    omega
  obtain ⟨found, hfound, hbase⟩ := exists_syncDescriptor data.length hmem
    (by rw [length_flagged]; omega) (by rw [length_flagged]; omega) (Nat.mod_lt _ (by decide))
    (show blob.length + 1 ≤ (env.map (patchFooter env img w footer data)).length + 1 by omega)
    (show firstDescriptor (flagged env blob) 0 < 2 ^ 64 from Nat.mod_lt _ (by decide)) hsome
  rw [← hfirst, ← hstop] at hfound
  have hbefore : ∀ off n, off + n ≤ w.vbmeta →
      slice (patchFooter env img w footer data) off n = slice data off n := by
    intro off n hoff
    rw [slice_patchFooter (by omega) (by rw [Nat.mod_eq_of_lt hlt]; omega)]
  rw [patchAvb, hfooter, hvbmeta]
  simp only [Option.bind_eq_bind, Option.pure_def]
  rw [← patchFooter, Nat.mod_eq_of_lt hlt, length_patchFooter]
  change ∃ out, (syncDescriptor _ _ (descriptorsStop _ _ % 2 ^ 64) _ (firstDescriptor _ _)).bind _ = _ ∧ _
  rw [hfound]
  cases found with
  | none => exact ⟨_, rfl, length_patchFooter, hbefore⟩
  | some place =>
      refine ⟨_, rfl, (length_patch _ _ _).trans length_patchFooter, ?_⟩
      intro off n hoff
      have hplace := hbase place rfl
      rw [slice_patch_of_disjoint (.inl (by omega)), hbefore off n hoff]

end Patches

def sampleVbmeta : List UInt8 :=
  avbMagic ++ zeros 100 ++ beBytes 8 136 ++ zeros 144 ++ beBytes 8 2 ++ beBytes 8 120 ++ zeros 120

def sampleFooter : List UInt8 :=
  avbFooterMagic ++ zeros 16 ++ beBytes 8 8192 ++ beBytes 8 4096 ++ zeros 28

def avbTail : List UInt8 := sampleVbmeta ++ zeros 7736 ++ sampleFooter

def avbHeader : Header := v1Header 0 0 1 0

def avbFile : List UInt8 := assemble avbHeader (single .second [1]) ++ avbTail

def avbImg : BootImg :=
  { assembled avbHeader (single .second [1]) {} {} .unknown with
    mem := avbFile
    mapSize := 16384
    flags := { avb := true }
    avbFooter := some 16320
    vbmeta := some 8192 }

theorem length_sampleVbmeta : sampleVbmeta.length = 392 := by
  simp only [sampleVbmeta, List.length_append, length_zeros, length_beBytes]
  rfl

theorem length_sampleFooter : sampleFooter.length = 64 := by
  simp only [sampleFooter, List.length_append, length_zeros, length_beBytes]
  rfl

theorem length_avbTail : avbTail.length = 8192 := by
  rw [avbTail, List.length_append, List.length_append, length_sampleVbmeta, length_sampleFooter,
    length_zeros]

theorem avbHeader_eq : avbHeader = v1Of (single .second [1]) := rfl

theorem v1Blocks_avb : V1Blocks (single .second [1]) := v1Blocks_single (.inl rfl) (by decide)

theorem stop_avbHeader : avbHeader.stop = 8192 := by
  rw [avbHeader_eq, Header.stop, Header.sizes]
  simp only [get_v1Of v1Blocks_avb]
  rw [v1Of, pageSize_v1Header, space_v1Header]
  rfl

theorem length_avbHead : (assemble avbHeader (single .second [1])).length = 8192 := by
  rw [← stop_avbHeader, avbHeader_eq, length_assemble_v1 v1Blocks_avb]

theorem length_avbFile : avbFile.length = 16384 := by
  rw [avbFile, List.length_append, length_avbHead, length_avbTail]

theorem slice_avbFile (off n : Nat) : slice avbFile (8192 + off) n = slice avbTail off n := by
  rw [avbFile, ← length_avbHead, slice_append_right]

theorem slice_avbFile_vbmeta {n : Nat} (hle : off + n ≤ 392) :
    slice avbFile (8192 + off) n = slice sampleVbmeta off n := by
  have hlength := length_sampleVbmeta
  rw [slice_avbFile, avbTail, List.append_assoc, slice_append_left (by omega)]

theorem slice_avbFile_footer (off n : Nat) :
    slice avbFile (16320 + off) n = slice sampleFooter off n := by
  have hlength : (sampleVbmeta ++ zeros 7736).length = 8128 := by
    rw [List.length_append, length_sampleVbmeta, length_zeros]
  rw [show 16320 + off = 8192 + (8128 + off) by omega, slice_avbFile, avbTail, ← hlength,
    slice_append_right]

theorem tailFlags_sampleEnv {tail : List UInt8} (hstart : avbMagic <+: tail) (payload : List UInt8) :
    tailFlags sampleEnv payload tail {} = {} := by
  have hmagic : ∀ magic, avbMagic.length ≤ magic.length → ¬ avbMagic <+: magic → ¬ magic <+: tail :=
    fun magic hlength hno hpre => hno (List.prefix_of_prefix_length_le hstart hpre hlength)
  rw [tailFlags, if_neg (hmagic seandroidMagic (by decide) (by decide)),
    if_neg (hmagic lgBumpMagic (by decide) (by decide)),
    if_neg (show ¬ sampleEnv.verify payload tail = true from Bool.false_ne_true)]

theorem parseTail_avbFile :
    parseTail sampleEnv avbFile 0 avbHeader.stop {}
      = some { flags := { avb := true }, avbFooter := some 16320, vbmeta := some 8192 } := by
  have hdrop : avbFile.drop 8192 = avbTail := by
    rw [avbFile, ← length_avbHead, List.drop_left]
  have hstart : avbMagic <+: avbTail := by
    simp only [avbTail, sampleVbmeta, List.append_assoc]
    exact List.prefix_append _ _
  rw [stop_avbHeader, parseTail_avb]
  · rw [length_avbFile, Nat.zero_add, hdrop, tailFlags_sampleEnv hstart]
    rfl
  · rw [length_avbFile]
    decide
  · rw [length_avbFile]
    exact (slice_avbFile_footer 0 4).trans rfl
  · rw [length_avbFile, show 16384 - avbFooterSize = 16320 from rfl, bigEndian,
      slice_avbFile_footer]
    rfl
  · rw [length_avbFile]
    decide
  · exact (slice_avbFile_vbmeta (show 0 + 4 ≤ 392 by decide)).trans rfl

theorem load_avbFile : load sampleEnv avbFile = some avbImg := by
  have htail := parseTail_avbFile
  rw [avbImg, ← length_avbFile]
  rw [avbFile, avbHeader_eq] at htail ⊢
  exact load_single_append (.inl rfl) (by decide) (by rw [length_avbTail]; decide) htail

theorem vbmetaSize_avbImg : vbmetaSize avbImg = 4096 := by
  have hslice : slice avbFile (16320 + 28) 8 = beBytes 8 4096 := (slice_avbFile_footer 28 8).trans rfl
  exact bigEndian_of_slice hslice (by decide)

theorem pageSize_avbImg : avbImg.raw.pageSize = 4096 := by
  rw [show avbImg.raw = v1Of (single .second [1]) from avbHeader_eq]
  exact pageSize_v1Header _ _ _ _

theorem space_avbImg : avbImg.raw.space = 4096 := by
  rw [show avbImg.raw = v1Of (single .second [1]) from avbHeader_eq]
  exact space_v1Header _ _ _ _

end MagiskNative.Boot
