import MagiskNative.Boot.Frame

/-!
# Room for the AVB footer

Blob and footer have no byte in common iff the blob ends 64 bytes before the end of the source.
-/

namespace MagiskNative.Boot

open Bytes Layout

section

variable {env : Env} {img : BootImg} {files : Files} {skipComp : Bool} {w : Written}

/-- The places of blob and footer in the mapped output have no byte in common. -/
def AvbApart (img : BootImg) (w : Written) : Prop :=
  Disjoint (Set.Ico (w.vbmeta % 2 ^ 32) (w.vbmeta % 2 ^ 32 + vbmetaSize img))
    (Set.Ico (w.data.length - avbFooterSize) w.data.length)

theorem avbApart_iff_le {size : Nat} (hsize : size = vbmetaSize img)
    (hlt : size ≠ 0 → w.vbmeta < w.data.length) :
    AvbApart img w ↔ size = 0 ∨ w.vbmeta % 2 ^ 32 + size + avbFooterSize ≤ w.data.length := by
  have hmod := Nat.mod_le w.vbmeta (2 ^ 32)
  have hfooter : avbFooterSize = 64 := rfl
  rw [AvbApart, ← hsize, Set.Ico_disjoint_Ico]
  by_cases hzero : size = 0
  · subst hzero
    refine iff_of_true ?_ (.inl rfl)
    exact (Nat.min_le_left _ _).trans (Nat.le_max_left _ _)
  · have hbelow := hlt hzero
    omega

/-- **Room for the footer.** Blob and footer are apart iff the blob is empty or ends, at the place that
the sizes of the components give it, 64 bytes before the end of the source. The last case is for a place
that 32 bits do not hold. -/
theorem avbApart_iff {file : List UInt8} (hload : load env file = some img) {vbmeta : Nat}
    (hvbmeta : img.vbmeta = some vbmeta) {sizes : List (Nat × Bool)}
    (hsizes : componentSizes env img files skipComp = some sizes)
    (hwrite : writeImg env img files skipComp = some w) :
    AvbApart img w ↔
      vbmetaSize img = 0 ∨
      (img.flags.chromeos = false ∧
        vbmetaPlace img (imageEnd img sizes) % 2 ^ 32 + vbmetaSize img + avbFooterSize ≤ file.length) ∨
      (2 ^ 32 ≤ vbmetaPlace img (imageEnd img sizes) ∧
        vbmetaPlace img (imageEnd img sizes) % 2 ^ 32 + vbmetaSize img + avbFooterSize
          ≤ vbmetaPlace img (imageEnd img sizes) + min (vbmetaSize img) (img.mem.length - vbmeta)) := by
  obtain ⟨-, -, -, -, hle, -⟩ := vbmeta_of_load hload hvbmeta
  obtain ⟨flags, hparsed, -⟩ := load_parsed hload
  obtain ⟨fd, hoff, hdata, -, -⟩ := writeImg_vbmeta hwrite hvbmeta
  have hblob : (vbmetaBlob img vbmeta).length = min (vbmetaSize img) (img.mem.length - vbmeta) :=
    length_slice _ _ _
  have hlength : w.data.length = if img.flags.chromeos then
      w.vbmeta + (vbmetaBlob img vbmeta).length
      else max (w.vbmeta + (vbmetaBlob img vbmeta).length) img.mapSize := by
    rw [hdata, length_padToSource, List.length_append, hoff]
  obtain ⟨-, hplace⟩ := layout_of_tail hload hwrite (tail_eq_imageEnd hload hwrite hsizes)
  have hlt : vbmetaSize img ≠ 0 → w.vbmeta < w.data.length := by
    intro hzero
    rw [hlength]
    split <;> omega
  have hfooter : avbFooterSize = 64 := rfl
  rw [avbApart_iff_le rfl hlt, hlength, ← hplace vbmeta hvbmeta, ← hblob,
    ← hparsed.mapSize_eq]
  cases img.flags.chromeos with
  | false =>
      simp only [Bool.false_eq_true, if_false, true_and]
      omega
  | true =>
      simp only [if_true, reduceCtorEq, false_and, false_or]
      omega

end

theorem writeImg_avbImg (files : Files) (skipComp : Bool) :
    ∃ w, writeImg sampleEnv avbImg files skipComp = some w := by
  have hpage := pageSize_avbImg
  obtain ⟨w, hwrite, -⟩ : ∃ w, writeImg sampleEnv avbImg files skipComp = some w ∧ _ :=
    writeImg_wrote (Header.get_eq_zero rfl) (by omega) (by omega)
  exact ⟨w, hwrite⟩

def avbFiles : Files := { second := some [1] }

/-- The sizes of the components of the sample image with a second stage of `n` bytes. -/
def secondSizes (n : Nat) : List (Nat × Bool) :=
  [(0, true), (0, false), (n, true), (0, false), (0, false), (0, false), (0, false), (0, false), (0, false)]

theorem componentSizes_avbImg (m : List UInt8) :
    componentSizes sampleEnv avbImg { second := some m } true = some (secondSizes (restored m).length) := rfl

theorem imageEnd_avbImg (n : Nat) : imageEnd avbImg (secondSizes n) = roundUp 4096 (4096 + n) := by
  have hpage : roundUp 4096 4096 = 4096 := rfl
  have hround : roundUp 4096 (roundUp 4096 (4096 + n)) = roundUp 4096 (4096 + n) :=
    roundUp_of_dvd (by decide) (dvd_roundUp _ _)
  rw [imageEnd, pageSize_avbImg, space_avbImg, show (trailer avbImg).length = 0 from rfl]
  simp only [secondSizes, List.foldl_cons, List.foldl_nil, if_true, Bool.false_eq_true, if_false,
    Nat.add_zero, hpage]

theorem vbmetaPlace_avbImg (n : Nat) :
    vbmetaPlace avbImg (imageEnd avbImg (secondSizes n)) = roundUp 4096 (4096 + n) := by
  have hround : roundUp 4096 (roundUp 4096 (4096 + n)) = roundUp 4096 (4096 + n) :=
    roundUp_of_dvd (by decide) (dvd_roundUp _ _)
  rw [vbmetaPlace, imageEnd_avbImg, pageSize_avbImg, hround, hround]
  exact Nat.zero_add _

theorem avbApart_avbFiles :
    load sampleEnv avbFile = some avbImg ∧ avbImg.vbmeta = some 8192 ∧
      componentSizes sampleEnv avbImg avbFiles true = some (secondSizes 1) ∧
      ∃ w, writeImg sampleEnv avbImg avbFiles true = some w ∧ AvbApart avbImg w := by
  obtain ⟨w, hwrite⟩ := writeImg_avbImg avbFiles true
  have hsizes : componentSizes sampleEnv avbImg avbFiles true = some (secondSizes 1) :=
    componentSizes_avbImg [1]
  refine ⟨load_avbFile, rfl, hsizes, w, hwrite, ?_⟩
  rw [avbApart_iff load_avbFile rfl hsizes hwrite, vbmetaSize_avbImg, vbmetaPlace_avbImg, length_avbFile]
  exact .inr (.inl ⟨rfl, by decide⟩)

theorem walkEnds_avb {blob : List UInt8} (hlength : 392 ≤ blob.length)
    (hslice : ∀ off n, off + n ≤ 392 → slice blob off n = slice sampleVbmeta off n) :
    WalkEnds sampleEnv blob := by
  have hflagged : flagged sampleEnv blob = blob := rfl
  have hword : ∀ off, off + 8 ≤ 392 → bigEndian blob off 8 = bigEndian sampleVbmeta off 8 :=
    fun off hoff => bigEndian_congr (hslice off 8 hoff)
  have hfirst : firstDescriptor blob 0 = 256 := by
    rw [firstDescriptor, hword _ (by decide), hword _ (by decide)]
    rfl
  have hstop : descriptorsStop blob 0 = 392 := by
    rw [descriptorsStop, hfirst, descriptorsSize, hword _ (by decide)]
    rfl
  refine ⟨by omega, ?_⟩
  rw [hflagged, hfirst, hstop, syncDescriptor, if_neg (by decide), if_neg (by omega), hword 256 (by decide)]
  simp only [show bigEndian sampleVbmeta 256 8 = 2 from rfl, if_true]
  split
  · rfl
  · split <;> rfl

theorem slice_avbBlob {off n : Nat} (hle : off + n ≤ 392) :
    slice (vbmetaBlob avbImg 8192) off n = slice sampleVbmeta off n := by
  rw [vbmetaBlob, vbmetaSize_avbImg, slice_slice (by omega)]
  exact slice_avbFile_vbmeta hle

theorem outputLength_of_vbmeta {img : BootImg} {vbmeta : Nat} (hvbmeta : img.vbmeta = some vbmeta)
    (hchromeos : img.flags.chromeos = false) (stop : Nat) :
    outputLength img stop = max (vbmetaPlace img stop + (vbmetaBlob img vbmeta).length) img.mapSize := by
  simp only [outputLength, hvbmeta, hchromeos, Bool.false_eq_true, if_false]

theorem not_avbApart_grown :
    load sampleEnv avbFile = some avbImg ∧ avbImg.vbmeta = some 8192 ∧
      ∃ w out, writeImg sampleEnv avbImg { second := some (zeros 8193) } true = some w ∧
        repack sampleEnv avbFile { second := some (zeros 8193) } true = some out ∧
        out.length = w.data.length ∧ ¬ AvbApart avbImg w := by
  obtain ⟨w, hwrite⟩ := writeImg_avbImg { second := some (zeros 8193) } true
  have hrestored : (restored (zeros 8193)).length = 8193 := by
    rw [restored, List.length_take, length_zeros]
    decide
  have hsizes := componentSizes_avbImg (zeros 8193)
  rw [hrestored] at hsizes
  have htail := tail_eq_imageEnd load_avbFile hwrite hsizes
  have hplace : vbmetaPlace avbImg (imageEnd avbImg (secondSizes 8193)) = 16384 :=
    (vbmetaPlace_avbImg 8193).trans rfl
  have hblob : (vbmetaBlob avbImg 8192).length = 4096 := by
    rw [vbmetaBlob, vbmetaSize_avbImg]
    apply length_slice_of_le
    rw [show avbImg.mem = avbFile from rfl, length_avbFile]
    decide
  have hlength : outputLength avbImg (imageEnd avbImg (secondSizes 8193)) = 20480 := by
    rw [outputLength_of_vbmeta rfl rfl, hplace, hblob]
    rfl
  have hundisturbed : Undisturbed sampleEnv avbImg (imageEnd avbImg (secondSizes 8193)) := by
    refine ⟨(fun h => by cases h), (fun h => by cases h), ?_⟩
    rintro vbmeta ⟨⟩
    rw [hplace, hlength]
    refine ⟨by decide, by decide, walkEnds_avb ?_ ?_⟩
    · rw [List.length_take, hblob]
      decide
    · intro off n hle
      rw [slice_take (le_trans hle (by decide)), slice_avbBlob hle]
  obtain ⟨out, hrepack, -, hout, -⟩ := exists_repack load_avbFile hwrite htail hundisturbed
  refine ⟨load_avbFile, rfl, w, out, hwrite, hrepack, hout rfl, ?_⟩
  obtain ⟨hdata, hvbmeta⟩ := layout_of_tail load_avbFile hwrite htail
  have hat := hvbmeta 8192 rfl
  rw [hplace] at hat
  rw [hlength] at hdata
  rw [avbApart_iff_le vbmetaSize_avbImg.symm (by omega), hdata, hat]
  decide

end MagiskNative.Boot
