import MagiskNative.Boot.Regions

/-!
# Where the footer is looked for

The AVB footer is the last 64 bytes of a file. `parse_image` takes the last 64 bytes of the mapping, and
between the two are the zeros that fill the last page.
-/

namespace MagiskNative.Boot

open Bytes Layout

/-- The file ends in a footer that names a vbmeta header in the file. -/
structure EndsInFooter (file : List UInt8) (addr : Nat) : Prop where
  magic : slice file (file.length - avbFooterSize) 4 = avbFooterMagic
  inside : namedVbmeta file addr + vbmetaHdrSize ≤ file.length
  vbmeta : slice file (namedVbmeta file addr) 4 = avbMagic

theorem avbFooter_of_parseTail {env : Env} {mem : List UInt8} {addr off footer : Nat} {flags : Flags}
    {tail : TailInfo} (htail : parseTail env mem addr off flags = some tail)
    (hfooter : tail.avbFooter = some footer) : footer = mem.length - avbFooterSize := by
  rcases parseTail_cases htail with ⟨rfl, -⟩ | ⟨env', payload, rest, htail⟩
  · cases hfooter
  · simp only [parseFooter] at htail
    split at htail
    · split at htail
      · cases htail
      · split at htail <;>
        · cases htail
          cases hfooter
          rfl
    · cases htail
      cases hfooter

/-- **The footer of a file.** It is found iff the file ends at a page border of the host. -/
theorem footerFound_iff {env : Env} {file : List UInt8} {addr : Nat} {fmt : FileFormat} {flags : Flags}
    {img : BootImg} (hparse : parseImage env (env.map file) file.length addr fmt flags = .ok img)
    (htail : img.addr + img.off + avbFooterSize ≤ file.length) (hfooter : EndsInFooter file img.addr) :
    (img.avbFooter = some (file.length - avbFooterSize) ∧ img.flags.avb = true) ↔
      env.hostPage ∣ file.length := by
  obtain ⟨p, -, -, -, hparsed⟩ := parseImage_eq_ok_iff.1 hparse
  have hsize : avbFooterSize = 64 := rfl
  constructor
  · rintro ⟨hfound, -⟩
    have hplace := avbFooter_of_parseTail hparsed.tail hfound
    have hle := env.length_le_map file
    have hlength : (env.map file).length = file.length := by omega
    rw [env.length_map] at hlength
    rw [← hlength]
    exact dvd_roundUp _ _
  · intro hpages
    have hinside := hfooter.inside
    have hparsedTail := hparsed.tail
    rw [env.map_eq_self hpages, parseTail_avb _ (by omega) hfooter.magic rfl
      ((Nat.add_le_add_left (by decide) _).trans hinside) hfooter.vbmeta, Option.some.injEq,
      TailInfo.mk.injEq] at hparsedTail
    obtain ⟨hflags, hplace, -⟩ := hparsedTail
    exact ⟨hplace.symm, by rw [← hflags]⟩

def gapFile (n : Nat) : List UInt8 :=
  assemble avbHeader (single .second [1]) ++ (sampleVbmeta ++ zeros n ++ sampleFooter)

section

variable (n : Nat)

theorem length_gapFile : (gapFile n).length = 8648 + n := by
  rw [gapFile, List.length_append, length_avbHead]
  simp only [List.length_append, length_sampleVbmeta, length_sampleFooter, length_zeros]
  omega

theorem slice_gapFile_footer (off k : Nat) :
    slice (gapFile n) ((gapFile n).length - avbFooterSize + off) k = slice sampleFooter off k := by
  have hlength : (assemble avbHeader (single .second [1]) ++ (sampleVbmeta ++ zeros n)).length
      = (gapFile n).length - avbFooterSize := by
    rw [length_gapFile, List.length_append, length_avbHead, List.length_append, length_sampleVbmeta,
      length_zeros, avbFooterSize]
    omega
  rw [← hlength, gapFile, ← List.append_assoc, slice_append_right]

theorem namedVbmeta_gapFile : namedVbmeta (gapFile n) 0 = 8192 := by
  rw [namedVbmeta, bigEndian, slice_gapFile_footer]
  rfl

theorem endsInFooter_gapFile : EndsInFooter (gapFile n) 0 where
  magic := by
    have hslice := slice_gapFile_footer n 0 4
    rw [Nat.add_zero] at hslice
    rw [hslice]
    rfl
  inside := by
    rw [namedVbmeta_gapFile, length_gapFile, vbmetaHdrSize]
    omega
  vbmeta := by
    have hright := slice_append_right (assemble avbHeader (single .second [1]))
      (sampleVbmeta ++ zeros n ++ sampleFooter) 0 4
    rw [length_avbHead, Nat.add_zero] at hright
    rw [namedVbmeta_gapFile]
    calc
      slice (gapFile n) 8192 4 = slice (sampleVbmeta ++ (zeros n ++ sampleFooter)) 0 4 := by
        rw [← List.append_assoc]
        exact hright
      _ = slice sampleVbmeta 0 4 := slice_append_left (by rw [length_sampleVbmeta]; decide)
      _ = avbMagic := rfl

end

theorem footerFound_avbImg :
    ∃ addr fmt flags, parseImage sampleEnv (sampleEnv.map avbFile) avbFile.length addr fmt flags
        = .ok avbImg ∧
      avbImg.avbFooter = some (avbFile.length - avbFooterSize) ∧ avbImg.flags.avb = true := by
  obtain ⟨addr, fmt, flags, -, hparse, -⟩ := scan_eq_some load_avbFile
  have hoff : avbImg.off = 8192 := stop_avbHeader
  refine ⟨addr, fmt, flags, hparse, (footerFound_iff hparse ?_ (endsInFooter_gapFile 7736)).2 ?_⟩
  · rw [hoff, length_avbFile]
    decide
  · rw [length_avbFile]
    decide

theorem parseImage_mapSize {env : Env} {mem : List UInt8} {mapSize addr : Nat} {fmt : FileFormat}
    {flags : Flags} {img : BootImg} (hparse : parseImage env mem mapSize addr fmt flags = .ok img)
    (mapSize' : Nat) :
    parseImage env mem mapSize' addr fmt flags = .ok { img with mapSize := mapSize' } := by
  obtain ⟨p, hhdr, hraw, haddr, hparsed⟩ := parseImage_eq_ok_iff.1 hparse
  exact parseImage_eq_ok_iff.2 ⟨p, hhdr, hraw, haddr, hparsed.1, rfl, hparsed.3, hparsed.4, hparsed.5,
    hparsed.6, hparsed.7, hparsed.8⟩

def gapTail : List UInt8 := sampleVbmeta ++ zeros 0 ++ sampleFooter ++ zeros 3640

theorem length_gapTail : gapTail.length = 4096 := by
  simp only [gapTail, List.length_append, length_sampleVbmeta, length_sampleFooter, length_zeros]

theorem map_gapFile :
    sampleEnv.map (gapFile 0) = assemble avbHeader (single .second [1]) ++ gapTail := by
  rw [Env.map, pad, length_gapFile, gapFile, List.append_assoc]
  rfl

theorem parseTail_gapFile :
    parseTail sampleEnv (assemble avbHeader (single .second [1]) ++ gapTail) 0 avbHeader.stop {}
      = some { flags := {} } := by
  have hdrop : (assemble avbHeader (single .second [1]) ++ gapTail).drop 8192 = gapTail := by
    rw [← length_avbHead, List.drop_left]
  have hstart : avbMagic <+: gapTail := by
    simp only [gapTail, sampleVbmeta, List.append_assoc]
    exact List.prefix_append _ _
  have hlength : (assemble avbHeader (single .second [1]) ++ gapTail).length = 12288 := by
    rw [List.length_append, length_avbHead, length_gapTail]
  have hend : slice (assemble avbHeader (single .second [1]) ++ gapTail) 12224 4 = zeros 4 := by
    have hfront : (assemble avbHeader (single .second [1]) ++ (sampleVbmeta ++ zeros 0 ++ sampleFooter)).length
        = 8648 := length_gapFile 0
    have hslice := slice_append_right
      (assemble avbHeader (single .second [1]) ++ (sampleVbmeta ++ zeros 0 ++ sampleFooter))
      (zeros 3640) 3576 4
    rw [hfront, slice_zeros (by decide), List.append_assoc] at hslice
    exact hslice
  rw [stop_avbHeader, parseTail_of_lt (by rw [hlength]; decide), Nat.zero_add, hdrop,
    tailFlags_sampleEnv hstart, parseFooter, hlength]
  simp only [show 12288 - avbFooterSize = 12224 from rfl, hend]
  rw [if_neg (by decide)]

theorem not_footerFound_gapFile :
    ∃ addr fmt flags img, parseImage sampleEnv (sampleEnv.map (gapFile 0)) (gapFile 0).length addr fmt
        flags = .ok img ∧
      img.addr + img.off + avbFooterSize ≤ (gapFile 0).length ∧ EndsInFooter (gapFile 0) img.addr ∧
      img.avbFooter = none ∧ img.flags.avb = false := by
  have htail := parseTail_gapFile
  have hpages : 4096 ∣ gapTail.length := by
    rw [length_gapTail]
  rw [avbHeader_eq] at htail
  have hload := load_single_append (.inl rfl) (by decide) hpages htail
  obtain ⟨addr, fmt, flags, -, hparse, -⟩ := scan_eq_some hload
  have hmap : sampleEnv.map (assemble (v1Of (single .second [1])) (single .second [1]) ++ gapTail)
      = sampleEnv.map (gapFile 0) := by
    rw [map_gapFile, ← avbHeader_eq]
    apply sampleEnv.map_eq_self
    rw [List.length_append, length_avbHead, length_gapTail]
    decide
  rw [hmap] at hparse
  refine ⟨addr, fmt, flags, _, parseImage_mapSize hparse _, ?_, endsInFooter_gapFile 0, rfl, rfl⟩
  have hoff : (v1Of (single .second [1])).stop = 8192 := by
    rw [← avbHeader_eq, stop_avbHeader]
  simp only [assembled, hoff, length_gapFile]
  decide

end MagiskNative.Boot
