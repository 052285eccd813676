import MagiskNative.Boot.Sites

/-!
# The locators of the end of the piggy

Three kinds of words in the head of a zImage tell where the piggy ends: a literal that is relative to
its own place, entries of the LC0 table, and the kernel size entry of the magic table. `newHead` moves
the first and the last by `delta_got`, which is the distance between two word borders and not between
two ends.
-/

namespace MagiskNative.Boot.ZImage

open Bytes Layout

structure Recorded (z : ZImage) : Prop where
  inflatedSize : z.offInflatedSize ≠ 0 → z.offInflatedSize + 4 ≤ z.head.length ∧
    z.offInflatedSize + readU32 z.head z.offInflatedSize + 4 = z.head.length + z.piggy.length
  lc0 : z.offLc0 + 32 ≤ z.head.length ∨ z.offLc0 = 0
  table : z.offTable ≠ 0 → z.offTable + 4 ≤ z.head.length

theorem recorded_of_parse {zimg : List UInt8} {z : ZImage} (hparse : parse zimg = some z)
    (hfits : z.head.length + z.piggy.length < 2 ^ 32) : Recorded z := by
  obtain ⟨piggyOff, piggyEnd, lc0, table, hbounds, hlc0, ⟨gotStart, htable⟩, rfl, -⟩ := parse_eq_some hparse
  obtain ⟨hoff, hlt, hend⟩ := hbounds
  have hlength : (zimg.take piggyOff).length = piggyOff := by
    rw [List.length_take]
    omega
  simp only [length_slice, hlength] at hfits
  refine ⟨fun hfound => ?_, ?_, fun hfound => ?_⟩
  · simp only at hfound ⊢
    have hsome : findInflatedSize (zimg.take piggyOff) piggyEnd ≠ 0 := by
      intro hzero
      exact hfound (by rw [hzero]; rfl)
    obtain ⟨hin, hword⟩ := findInflatedSize_spec hsome
    have hword_lt := readU32_lt (zimg.take piggyOff) (findInflatedSize (zimg.take piggyOff) piggyEnd)
    rw [hlength] at hin
    rw [u32_of_lt (by omega), length_slice, hlength]
    rw [wrappingAdd, wrappingAdd, u32_of_lt (n := piggyEnd) (by omega), u32, u32] at hword
    omega
  · cases lc0 with
    | none => exact .inr rfl
    | some off =>
        have hin := findLc0_eq_some hlc0
        have hoff : u32 off = off := u32_of_lt (by omega)
        refine .inl ?_
        simp only [Option.getD_some, hoff]
        exact hin
  · cases table with
    | none => exact absurd rfl hfound
    | some found =>
        obtain ⟨entry, hentry, hin⟩ := (findTable_eq_some htable).1
        have hoff : u32 entry = entry := u32_of_lt (by omega)
        simp only [Option.map_some, Option.getD_some, hentry, hoff]
        exact hin

def tableEnd (z : ZImage) : Nat := wrappingAdd (wrappingSub (readU32 z.head z.offTable) z.start) 4

/-- Every locator in the stub designates the end of a payload of the new size. -/
structure Located (z : ZImage) (payloadSz : Nat) (stub : List UInt8) : Prop where
  inflatedSize : z.offInflatedSize ≠ 0 →
    z.offInflatedSize + readU32 stub z.offInflatedSize + 4 = z.head.length + payloadSz
  lc0 : z.offLc0 ≠ 0 → ∀ off ∈ z.lc0Entries, readU32 z.head off = wrappingSub z.origPiggyEnd 4 →
    readU32 stub off = wrappingSub (z.newPiggyEnd payloadSz) 4
  table : z.offTable ≠ 0 → readU32 stub z.offTable = wrappingSub (z.newPiggyEnd payloadSz) 4

/-- None of the words overlaps the one at `off`. A write over the end of the head does nothing. -/
def Clear (z : ZImage) (sites : List Nat) (off : Nat) : Prop :=
  ∀ site ∈ sites, site + 4 ≤ z.head.length → WordsApart site off

/-- No locator overlaps another word that is patched. -/
structure LocatorsClear (z : ZImage) (payloadSz : Nat) : Prop where
  inflatedSize : z.offInflatedSize ≠ 0 →
    z.Clear ([0x2c] ++ z.lc0Sites payloadSz ++ z.lc1Sites ++ z.tagSites ++ z.literalSites payloadSz)
      z.offInflatedSize
  lc0 : z.offLc0 ≠ 0 → ∀ off ∈ z.lc0Entries, readU32 z.head off = wrappingSub z.origPiggyEnd 4 →
    z.Clear (z.endSites ++ z.lc1Sites ++ z.tagSites ++ z.literalSites payloadSz) off
  table : z.offTable ≠ 0 →
    z.Clear (z.endSites ++ z.lc0Sites payloadSz ++ z.lc1Sites ++ z.literalSites payloadSz) z.offTable

/-- The literal needs as much padding behind the new payload as behind the old one, and the table entry makes
up for the difference. -/
def EndsMeet (z : ZImage) (payloadSz : Nat) : Prop :=
  (z.offInflatedSize ≠ 0 → z.newPadSz payloadSz = z.origPadSz) ∧
    (z.offTable ≠ 0 → u32 (z.tableEnd + z.newPadSz payloadSz)
      = u32 (z.head.length + z.piggy.length + z.origPadSz))

section

variable {z : ZImage} {payloadSz val : Nat}

theorem shiftWord_literal_iff (hwrap : NoWrap z payloadSz) {off : Nat}
    (hin : off + 4 ≤ z.head.length) (hval : off + val + 4 = z.head.length + z.piggy.length) :
    off + z.shiftWord payloadSz val + 4 = z.head.length + payloadSz
      ↔ z.newPadSz payloadSz = z.origPadSz := by
  have hdelta := z.deltaGot_add payloadSz
  have hnewPad := z.newPadSz_lt payloadSz
  have horigPad := z.origPadSz_le
  rw [(piggyEnds_eq hwrap).1, (piggyEnds_eq hwrap).2] at hdelta
  obtain ⟨horig, hnew⟩ := hwrap
  simp only [shiftWord, wrappingAdd, u32] at hdelta ⊢
  omega

theorem shiftWord_entry_iff (hwrap : NoWrap z payloadSz) (val : Nat) :
    z.shiftWord payloadSz val = wrappingSub (z.newPiggyEnd payloadSz) 4
      ↔ u32 (wrappingAdd (wrappingSub val z.start) 4 + z.newPadSz payloadSz)
        = u32 (z.head.length + z.piggy.length + z.origPadSz) := by
  have hdelta := z.deltaGot_add payloadSz
  rw [(piggyEnds_eq hwrap).1, (piggyEnds_eq hwrap).2] at hdelta
  rw [(piggyEnds_eq hwrap).2]
  simp only [shiftWord, wrappingAdd, wrappingSub, u32] at hdelta ⊢
  omega

/-- What the locators hold after `newHead`. -/
structure LocatorsMoved (z : ZImage) (payloadSz : Nat) : Prop where
  inflatedSize : z.offInflatedSize ≠ 0 →
    readU32 (z.newHead payloadSz) z.offInflatedSize = z.shiftWord payloadSz (readU32 z.head z.offInflatedSize)
  lc0 : z.offLc0 ≠ 0 → ∀ off ∈ z.lc0Entries, readU32 z.head off = wrappingSub z.origPiggyEnd 4 →
    readU32 (z.newHead payloadSz) off = wrappingSub (z.newPiggyEnd payloadSz) 4
  table : z.offTable ≠ 0 →
    readU32 (z.newHead payloadSz) z.offTable = z.shiftWord payloadSz (readU32 z.head z.offTable)

theorem locatorsMoved_length (z : ZImage) : LocatorsMoved z z.piggy.length := by
  refine ⟨fun _ => ?_, fun _ off _ hval => ?_, fun _ => ?_⟩
  · rw [newHead_length, shiftWord_length (readU32_lt _ _)]
  · rw [newHead_length, hval]
    rfl
  · rw [newHead_length, shiftWord_length (readU32_lt _ _)]

theorem extends_tracedEnds (z : ZImage) (payloadSz : Nat) :
    (⟨z.head, []⟩ : Traced).Extends (z.tracedEnds payloadSz) :=
  (Traced.extends_shift z payloadSz _ 0x2c).trans
    (Traced.extends_ite fun _ => Traced.extends_shift z payloadSz _ z.offInflatedSize)

theorem readU32_tracedLc0 {t : Traced} (hfound : z.offLc0 ≠ 0) {off : Nat} (hoff : off ∈ z.lc0Entries)
    (hroom : off + 4 ≤ t.stub.length) :
    readU32 (z.tracedLc0 payloadSz t).stub off = z.lc0Word payloadSz (readU32 t.stub off) := by
  have hstub : (z.tracedLc0 payloadSz t).stub = applyPatches t.stub
      (z.lc0Entries.map fun off => (off, z.lc0Word payloadSz)) := by
    rw [tracedLc0, if_pos hfound, stub_foldl (z.stub_tracedLc0Entry payloadSz), lc0Entries,
      foldl_patchLc0Entry, List.map_map]
    rfl
  rw [hstub]
  refine readU32_applyPatches ?_ (List.mem_map_of_mem hoff) hroom (lc0Word_lt (readU32_lt _ _))
  rw [List.pairwise_map]
  exact z.pairwise_lc0Entries

section Moved

variable (hrecorded : Recorded z) (hmoved : ¬ z.Unmoved payloadSz) (hkept : z.CodeKept payloadSz)
  (hclear : LocatorsClear z payloadSz)

include hmoved hkept

/-- A word keeps what a stage left in it, if the later stages and the literals are apart from it. -/
theorem readU32_newHead_of_clear (sites : List Nat) {t : Traced}
    (hextends : t.Extends (z.tracedTables payloadSz)) (hsites : z.tableSites payloadSz = t.sites ++ sites) {off : Nat}
    (hlength : t.stub.length = z.head.length) (hclear : z.Clear (sites ++ z.literalSites payloadSz) off) :
    readU32 (z.newHead payloadSz) off = readU32 t.stub off := by
  have hliterals : (z.tracedTables payloadSz).Extends (z.tracedHead payloadSz) := by
    rw [Unmoved] at hmoved
    rw [tracedHead, if_neg hmoved]
    exact z.extends_tracedLiterals payloadSz _
  have hall : (z.tracedHead payloadSz).sites = t.sites ++ (sites ++ z.literalSites payloadSz) := by
    rw [tracedHead_eq hmoved hkept, ← List.append_assoc, ← hsites]
  rw [← stub_tracedHead]
  refine (hextends.trans hliterals).readU32_eq hall fun site hsite hroom => hclear site hsite ?_
  rwa [← hlength]

include hrecorded hclear

theorem locatorsMoved : LocatorsMoved z payloadSz := by
  have hends := z.extends_tracedEnds payloadSz
  have hlc0 := z.extends_tracedLc0 payloadSz (z.tracedEnds payloadSz)
  have hlc1 := z.extends_tracedLc1 payloadSz (z.tracedLc0 payloadSz (z.tracedEnds payloadSz))
  have htag : (z.tracedLc1 payloadSz (z.tracedLc0 payloadSz (z.tracedEnds payloadSz))).Extends
      (z.tracedTables payloadSz) := z.extends_tracedTable payloadSz _
  refine ⟨fun hfound => ?_, fun hfound off hoff hval => ?_, fun hfound => ?_⟩
  · have hapart := hclear.inflatedSize hfound
    have hbefore : readU32 ((⟨z.head, []⟩ : Traced).shift z payloadSz 0x2c).stub z.offInflatedSize
        = readU32 z.head z.offInflatedSize :=
      (Traced.extends_shift z payloadSz _ 0x2c).readU32_eq rfl fun site hsite hroom =>
        hapart site (by simp [List.mem_singleton.1 hsite]) hroom
    have hstage : readU32 (z.tracedEnds payloadSz).stub z.offInflatedSize
        = z.shiftWord payloadSz (readU32 z.head z.offInflatedSize) := by
      rw [tracedEnds, if_pos hfound, ← hbefore]
      refine readU32_writeU32_self ?_ (shiftWord_lt _)
      rw [(Traced.extends_shift z payloadSz _ 0x2c).length_stub]
      exact (hrecorded.inflatedSize hfound).1
    rw [← hstage]
    refine readU32_newHead_of_clear hmoved hkept (z.lc0Sites payloadSz ++ z.lc1Sites ++ z.tagSites)
      (hlc0.trans (hlc1.trans htag)) ?_ hends.length_stub ?_
    · rw [sites_tracedEnds, tableSites]
      simp only [List.append_assoc]
    · intro site hsite
      apply hapart site
      simp only [List.append_assoc, List.mem_append] at hsite ⊢
      tauto
  · have hapart := hclear.lc0 hfound off hoff hval
    have hin := hrecorded.lc0.resolve_right hfound
    have hroom : off + 4 ≤ z.head.length := by
      rw [lc0Entries, List.mem_map] at hoff
      obtain ⟨i, hi, rfl⟩ := hoff
      rw [List.mem_range'_1] at hi
      omega
    have hbefore : readU32 (z.tracedEnds payloadSz).stub off = wrappingSub z.origPiggyEnd 4 := by
      rw [hends.readU32_eq (z.sites_tracedEnds payloadSz) fun site hsite hroom => hapart site ?_ hroom]
      · exact hval
      · simp only [List.mem_append]
        tauto
    have hstage : readU32 (z.tracedLc0 payloadSz (z.tracedEnds payloadSz)).stub off
        = wrappingSub (z.newPiggyEnd payloadSz) 4 := by
      rw [readU32_tracedLc0 hfound hoff (by rwa [hends.length_stub]), hbefore, lc0Word, if_pos rfl]
    rw [← hstage]
    refine readU32_newHead_of_clear hmoved hkept (z.lc1Sites ++ z.tagSites) (hlc1.trans htag) ?_
      (hends.trans hlc0).length_stub ?_
    · rw [sites_tracedLc0, tableSites]
      simp only [List.append_assoc]
    · intro site hsite
      apply hapart site
      simp only [List.append_assoc, List.mem_append] at hsite ⊢
      tauto
  · have hapart := hclear.table hfound
    have hlength := ((hends.trans hlc0).trans hlc1).length_stub
    have hsites : (z.tracedLc1 payloadSz (z.tracedLc0 payloadSz (z.tracedEnds payloadSz))).sites
        = [] ++ (z.endSites ++ z.lc0Sites payloadSz ++ z.lc1Sites) := by
      rw [sites_tracedLc1, sites_tracedLc0, List.nil_append]
    have hbefore : readU32 (z.tracedLc1 payloadSz (z.tracedLc0 payloadSz (z.tracedEnds payloadSz))).stub
        z.offTable = readU32 z.head z.offTable :=
      ((hends.trans hlc0).trans hlc1).readU32_eq hsites fun site hsite hroom =>
        hapart site (List.mem_append_left _ hsite) hroom
    have hstage : readU32 (z.tracedTables payloadSz).stub z.offTable
        = z.shiftWord payloadSz (readU32 z.head z.offTable) := by
      rw [tracedTables, tracedTable, if_pos hfound, ← hbefore]
      refine readU32_writeU32_self ?_ (shiftWord_lt _)
      rw [hlength]
      exact hrecorded.table hfound
    rw [← hstage]
    refine readU32_newHead_of_clear hmoved hkept [] (.refl _) ?_ ?_ ?_
    · rw [sites_tracedTables, List.append_nil]
    · exact htag.length_stub.trans hlength
    · intro site hsite
      exact hapart site (List.mem_append_right _ hsite)

end Moved

end

theorem locatorsClear_sampleZImage : LocatorsClear sampleZImage 20 where
  inflatedSize _ := by
    rw [Clear]
    decide
  lc0 hfound := absurd rfl hfound
  table hfound := absurd rfl hfound

end MagiskNative.Boot.ZImage
