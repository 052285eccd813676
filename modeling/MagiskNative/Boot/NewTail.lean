import MagiskNative.Boot.Sites

/-!
# Lengths after relocation

`newHead` and `newTail` compute paddings and `delta_got` independently of each other. The new parts
are as much longer as the GOT has moved, and the end address in the header follows, as long as that
word is in the head at all.
-/

namespace MagiskNative.Boot.ZImage

open Bytes Layout

variable {zimg : List UInt8} {z : ZImage}

section

variable (z : ZImage) (payloadSz : Nat)

theorem extends_tracedTables :
    ((⟨z.head, []⟩ : Traced).shift z payloadSz 0x2c).Extends (z.tracedTables payloadSz) := by
  have hends : ((⟨z.head, []⟩ : Traced).shift z payloadSz 0x2c).Extends (z.tracedEnds payloadSz) :=
    Traced.extends_ite fun _ => Traced.extends_shift z payloadSz _ z.offInflatedSize
  exact hends.trans ((z.extends_tracedLc0 payloadSz _).trans ((z.extends_tracedLc1 payloadSz _).trans
    (z.extends_tracedTable payloadSz _)))

def laterSites : List Nat := (z.tracedHead payloadSz).sites.tail

variable {z payloadSz}

theorem readU32_newHead_end (hapart : ∀ site ∈ z.laterSites payloadSz, WordsApart site 0x2c)
    (hpos : payloadSz ≠ 0) (hhead : z.head ≠ []) (hin : 0x30 ≤ z.head.length) :
    readU32 (z.newHead payloadSz) 0x2c = z.shiftWord payloadSz (readU32 z.head 0x2c) := by
  by_cases hsame : payloadSz = z.piggy.length
  · subst hsame
    rw [newHead_length, shiftWord_length (readU32_lt _ _)]
  · have htraced : z.tracedHead payloadSz
        = z.tracedLiterals payloadSz (z.tracedTables payloadSz) := by
      rw [tracedHead, if_neg (by simp [hpos, hhead, hsame])]
    have hextends := (z.extends_tracedTables payloadSz).trans
      (z.extends_tracedLiterals payloadSz (z.tracedTables payloadSz))
    rw [← htraced] at hextends
    have hsites : (z.tracedHead payloadSz).sites
        = ((⟨z.head, []⟩ : Traced).shift z payloadSz 0x2c).sites ++ z.laterSites payloadSz := by
      obtain ⟨sites, hsites, -⟩ := hextends
      rw [laterSites, hsites]
      rfl
    rw [← stub_tracedHead, hextends.readU32_eq hsites fun site hsite _ => hapart site hsite]
    exact readU32_writeU32_self hin (shiftWord_lt _)

end

section

variable {z : ZImage} {payloadSz : Nat}

theorem newPadSz_length (z : ZImage) : z.newPadSz z.piggy.length = z.origPadSz := rfl

def paddedTail (z : ZImage) (payloadSz : Nat) : List UInt8 :=
  zeros (z.newPadSz payloadSz) ++ if z.origPadSz < z.tail.length then z.tail.drop z.origPadSz else []

theorem length_paddedTail (htail : z.origPadSz ≤ z.tail.length) :
    (z.paddedTail payloadSz).length = z.newPadSz payloadSz + (z.tail.length - z.origPadSz) := by
  rw [paddedTail, List.length_append, length_zeros]
  split
  · rw [List.length_drop]
  · rw [List.length_nil]
    omega

theorem newTail_eq (hne : z.tail ≠ []) (hpos : payloadSz ≠ 0) (hsame : payloadSz ≠ z.piggy.length) :
    z.newTail payloadSz
      = if z.offLc0 ≠ 0 then
          (words (z.newPadSz payloadSz) ((z.paddedTail payloadSz).length - 4)).foldl
            (z.patchGotEntry payloadSz) (z.paddedTail payloadSz)
        else z.paddedTail payloadSz := by
  rw [newTail, if_neg (by simp [hne, hpos, hsame])]
  rfl

theorem length_newTail (hne : z.tail ≠ []) (hpos : payloadSz ≠ 0) (htail : z.origPadSz ≤ z.tail.length) :
    (z.newTail payloadSz).length = z.newPadSz payloadSz + (z.tail.length - z.origPadSz) := by
  by_cases hsame : payloadSz = z.piggy.length
  · subst hsame
    rw [newTail_length, newPadSz_length]
    omega
  · rw [newTail_eq hne hpos hsame, ← length_paddedTail htail]
    split
    · exact length_foldl (length_patchGotEntry z payloadSz) _ _
    · rfl

structure GotInside (z : ZImage) (payloadSz : Nat) : Prop where
  orig : z.head.length + z.piggy.length + z.start + z.origPadSz < 2 ^ 32
  new : z.head.length + payloadSz + z.start + z.newPadSz payloadSz < 2 ^ 32

theorem gotStarts_eq (hinside : GotInside z payloadSz) :
    gotStartOf z.origPiggyEnd = z.head.length + z.piggy.length + z.start + z.origPadSz ∧
      gotStartOf (z.newPiggyEnd payloadSz) = z.head.length + payloadSz + z.start + z.newPadSz payloadSz := by
  have hwrap : NoWrap z payloadSz := ⟨by have := hinside.orig; omega, by have := hinside.new; omega⟩
  obtain ⟨horig, hnew⟩ := hinside
  rw [origPadSz, wrappingSub_gotStartOf, (piggyEnds_eq hwrap).1] at horig ⊢
  rw [newPadSz, wrappingSub_gotStartOf, (piggyEnds_eq hwrap).2] at hnew ⊢
  rw [gotStartOf_eq, gotStartOf_eq]
  exact ⟨u32_of_lt horig, u32_of_lt hnew⟩

def gotShift (z : ZImage) (payloadSz : Nat) : Int :=
  gotStartOf (z.newPiggyEnd payloadSz) - gotStartOf z.origPiggyEnd

theorem deltaGot_eq (z : ZImage) (payloadSz : Nat) :
    (z.deltaGot payloadSz : Int) = z.gotShift payloadSz % 2 ^ 32 := by
  rw [deltaGot, gotShift, wrappingSub, u32, u32]
  omega

/-- The new parts together are longer by the distance of the GOTs, the end address follows it, and
the new GOT is at a word border. -/
structure Resized (z : ZImage) (payloadSz : Nat) : Prop where
  total : (z.head.length + payloadSz + (z.newTail payloadSz).length : Int)
    = z.head.length + z.piggy.length + z.tail.length + z.gotShift payloadSz
  delta : (z.deltaGot payloadSz : Int) = z.gotShift payloadSz % 2 ^ 32
  endField : readU32 (z.newHead payloadSz) 0x2c
    = wrappingAdd (readU32 z.head 0x2c) (z.deltaGot payloadSz)
  got : (z.newTail payloadSz).length - z.newPadSz payloadSz = z.tail.length - z.origPadSz
  aligned : 4 ∣ z.start + z.head.length + payloadSz + z.newPadSz payloadSz

end

theorem tail_ne_nil_of_parse (hparse : parse zimg = some z) :
    z.tail ≠ [] := by
  obtain ⟨piggyOff, piggyEnd, lc0, table, hbounds, -, -, rfl, -⟩ := parse_eq_some hparse
  apply List.ne_nil_of_length_pos
  simp only [List.length_drop]
  omega

/-- **Lengths after relocation.** All is as it should be if the end address is in the head, or if
nothing moves. -/
theorem resized_iff (hparse : parse zimg = some z) {payloadSz : Nat}
    (hpos : 0 < payloadSz) (htail : z.origPadSz ≤ z.tail.length) (hinside : GotInside z payloadSz)
    (hapart : ∀ site ∈ z.laterSites payloadSz, WordsApart site 0x2c) :
    Resized z payloadSz ↔ 0x30 ≤ z.head.length ∨ z.deltaGot payloadSz = 0 := by
  have hhead : z.head ≠ [] := (parse_parts hparse).2.1
  have hlength := length_newTail (tail_ne_nil_of_parse hparse) hpos.ne' htail
  obtain ⟨horig, hnew⟩ := gotStarts_eq hinside
  have hdelta_lt : z.deltaGot payloadSz < 2 ^ 32 := u32_lt _
  have hend : readU32 (z.newHead payloadSz) 0x2c
      = wrappingAdd (readU32 z.head 0x2c) (z.deltaGot payloadSz) ↔
        0x30 ≤ z.head.length ∨ z.deltaGot payloadSz = 0 := by
    by_cases hin : 0x30 ≤ z.head.length
    · exact iff_of_true (readU32_newHead_end hapart hpos.ne' hhead hin) (.inl hin)
    · have hout : readU32 z.head 0x2c = 0 := if_neg (by omega)
      have hout' : readU32 (z.newHead payloadSz) 0x2c = 0 := by
        apply if_neg
        rw [length_newHead]
        omega
      rw [hout, hout', wrappingAdd, Nat.zero_add, u32_of_lt hdelta_lt]
      omega
  constructor
  · intro hresized
    exact hend.1 hresized.endField
  · intro hcond
    refine ⟨?_, z.deltaGot_eq payloadSz, hend.2 hcond, by omega, ?_⟩
    · rw [gotShift, horig, hnew, hlength]
      omega
    · have hstart : gotStartOf (z.newPiggyEnd payloadSz) % 4 = 0 := by
        rw [gotStartOf]
        omega
      omega

theorem resized_sampleZImage : Resized sampleZImage 20 :=
  (resized_iff parse_sampleZImage (by decide) (by decide) ⟨by decide, by decide⟩ (by decide)).2
    (.inl (by decide))

def shortZImage : ZImage where
  head := zeros 36 ++ leBytes 4 0x016f2818 ++ zeros 4
  piggy := xzMagic ++ zeros 31
  tail := zeros 16 ++ leBytes 4 80
  fmt := .xz
  offInflatedSize := 0
  offLc0 := 0
  offLc1 := 0
  offTable := 0

theorem not_resized_shortZImage :
    parse (shortZImage.head ++ shortZImage.piggy ++ shortZImage.tail) = some shortZImage ∧
      shortZImage.origPadSz ≤ shortZImage.tail.length ∧ GotInside shortZImage 40 ∧
      (∀ site ∈ shortZImage.laterSites 40, WordsApart site 0x2c) ∧ ¬ Resized shortZImage 40 := by
  have hparse : parse (shortZImage.head ++ shortZImage.piggy ++ shortZImage.tail) = some shortZImage := by
    rfl
  refine ⟨hparse, by decide, ⟨by decide, by decide⟩, by decide, fun hresized => ?_⟩
  exact absurd hresized.endField (by decide)

section

variable (z : ZImage) (payloadSz : Nat)

def Relocated (val : Nat) : Prop :=
  val = z.origPiggyEnd ∨ wrappingSub (gotStartOf z.origPiggyEnd) 4 ≤ val

instance (val : Nat) : Decidable (z.Relocated val) := inferInstanceAs (Decidable (_ ∨ _))

def tracedGotEntry (t : Traced) (i : Nat) : Traced :=
  let val := readU32 t.stub i
  if val = z.origPiggyEnd then t.write i (z.newPiggyEnd payloadSz)
  else if wrappingSub (gotStartOf z.origPiggyEnd) 4 ≤ val then t.shift z payloadSz i
  else t

def gotEntries : List Nat :=
  if z.tail = [] ∨ payloadSz = 0 ∨ payloadSz = z.piggy.length ∨ z.offLc0 = 0 then []
  else words (z.newPadSz payloadSz) ((z.paddedTail payloadSz).length - 4)

def tracedTail : Traced :=
  (z.gotEntries payloadSz).foldl (z.tracedGotEntry payloadSz)
    ⟨if z.tail = [] ∨ payloadSz = 0 ∨ payloadSz = z.piggy.length then z.tail else z.paddedTail payloadSz, []⟩

theorem stub_tracedGotEntry (t : Traced) (i : Nat) :
    (z.tracedGotEntry payloadSz t i).stub = z.patchGotEntry payloadSz t.stub i := by
  simp only [tracedGotEntry, patchGotEntry]
  split
  · rfl
  · split <;> rfl

theorem stub_tracedTail : (z.tracedTail payloadSz).stub = z.newTail payloadSz := by
  rw [tracedTail, stub_foldl (z.stub_tracedGotEntry payloadSz), gotEntries]
  by_cases htrivial : z.tail = [] ∨ payloadSz = 0 ∨ payloadSz = z.piggy.length
  · rw [newTail, if_pos htrivial, if_pos htrivial, if_pos (by tauto)]
    rfl
  · have htrivial' := htrivial
    simp only [not_or] at htrivial'
    rw [if_neg htrivial, newTail_eq htrivial'.1 htrivial'.2.1 htrivial'.2.2]
    by_cases hlc0 : z.offLc0 = 0
    · rw [if_pos (by tauto), if_neg (not_not.2 hlc0)]
      rfl
    · rw [if_neg (by tauto), if_pos hlc0]

theorem extends_tracedGotEntry (t : Traced) (i : Nat) :
    t.Extends (z.tracedGotEntry payloadSz t i) := by
  simp only [tracedGotEntry]
  split
  · exact t.extends_write i _
  · exact Traced.extends_ite fun _ => t.extends_shift z payloadSz i

theorem sites_tracedGotEntry (t : Traced) (i : Nat) :
    (z.tracedGotEntry payloadSz t i).sites
      = t.sites ++ [i].filter fun i => z.Relocated (readU32 t.stub i) := by
  simp only [tracedGotEntry, Relocated]
  split
  · rename_i horig
    simp [horig, Traced.write]
  · rename_i horig
    split
    · rename_i hgot
      simp [hgot, Traced.shift]
    · rename_i hgot
      simp [horig, hgot]

theorem pairwise_words (lo hi : Nat) : (words lo hi).Pairwise WordsApart := by
  rw [words, List.pairwise_map]
  refine List.pairwise_lt_range.imp fun hlt => ?_
  rw [WordsApart]
  omega

end

def declaredTail (z : ZImage) (zimg : List UInt8) : Nat :=
  readU32 zimg 0x2c - readU32 zimg 0x28 - (z.head.length + z.piggy.length)

/-- What follows the declared image is copied, and only words inside it are rewritten. A write over the end
of the buffer does nothing. -/
structure KeepsForeign (z : ZImage) (zimg : List UInt8) (payloadSz : Nat) : Prop where
  copied : z.tail.drop (z.declaredTail zimg) <:+ z.newTail payloadSz
  inside : ∀ site ∈ (z.tracedTail payloadSz).sites, site + 4 ≤ (z.newTail payloadSz).length →
    site + 4 + (z.tail.length - z.declaredTail zimg) ≤ (z.newTail payloadSz).length

/-- The bytes between the declared end and the GOT, which become padding, are zeros and no more than the
new padding. -/
def PaddingKept (z : ZImage) (zimg : List UInt8) (payloadSz : Nat) : Prop :=
  (z.tail.take z.origPadSz).drop (z.declaredTail zimg) <:+ zeros (z.newPadSz payloadSz)

/-- No word of the tail, from the GOT on, that goes over the declared end looks like an address from the end
of the piggy on. -/
def WordsKept (z : ZImage) (zimg : List UInt8) : Prop :=
  z.offLc0 ≠ 0 → ∀ k, z.origPadSz + 4 * k + 4 ≤ z.tail.length →
    z.declaredTail zimg < z.origPadSz + 4 * k + 4 → ¬ z.Relocated (readU32 z.tail (z.origPadSz + 4 * k))

section

variable {z : ZImage} {payloadSz : Nat}

theorem mem_sites_tracedTail {site : Nat} :
    site ∈ (z.tracedTail payloadSz).sites ↔
      site ∈ z.gotEntries payloadSz ∧ z.Relocated (readU32 (z.paddedTail payloadSz) site) := by
  rw [tracedTail, gotEntries]
  by_cases hnone : z.tail = [] ∨ payloadSz = 0 ∨ payloadSz = z.piggy.length ∨ z.offLc0 = 0
  · rw [if_pos hnone]
    simp
  · rw [if_neg hnone, if_neg (by tauto), sites_foldl (z.extends_tracedGotEntry payloadSz)
      (z.sites_tracedGotEntry payloadSz)
      (pairwise_words _ _)]
    simp [List.mem_filter]

theorem paddedTail_eq (z : ZImage) (payloadSz : Nat) :
    z.paddedTail payloadSz = zeros (z.newPadSz payloadSz) ++ z.tail.drop z.origPadSz := by
  rw [paddedTail]
  split
  · rfl
  · rw [List.drop_eq_nil_of_le (by omega)]

theorem readU32_paddedTail (k : Nat) :
    readU32 (z.paddedTail payloadSz) (z.newPadSz payloadSz + 4 * k)
      = readU32 z.tail (z.origPadSz + 4 * k) := by
  have hzeros := length_zeros (z.newPadSz payloadSz)
  have hslice : slice (z.paddedTail payloadSz) (z.newPadSz payloadSz + 4 * k) 4
      = slice z.tail (z.origPadSz + 4 * k) 4 := by
    rw [paddedTail_eq]
    nth_rewrite 2 [← hzeros]
    rw [slice_append_right, slice_drop]
  rw [readU32, readU32, hslice, paddedTail_eq, List.length_append, hzeros, List.length_drop]
  by_cases hle : z.origPadSz + 4 * k + 4 ≤ z.tail.length
  · rw [if_pos hle, if_pos (by omega)]
  · rw [if_neg hle, if_neg (by omega)]

theorem suffix_paddedTail_iff :
    z.tail.drop (z.declaredTail zimg) <:+ z.paddedTail payloadSz ↔ z.PaddingKept zimg payloadSz := by
  rw [PaddingKept, paddedTail_eq]
  by_cases hbefore : z.declaredTail zimg ≤ z.origPadSz
  · have hsplit : z.tail.drop (z.declaredTail zimg)
        = (z.tail.take z.origPadSz).drop (z.declaredTail zimg) ++ z.tail.drop z.origPadSz := by
      nth_rewrite 1 [← List.take_append_drop z.origPadSz z.tail]
      rw [List.drop_append, List.drop_drop, List.length_take]
      by_cases hlong : z.origPadSz ≤ z.tail.length
      · congr 2
        omega
      · have hnil : ∀ n, z.origPadSz ≤ n → z.tail.drop n = [] :=
          fun n hn => List.drop_eq_nil_of_le (by omega)
        rw [hnil _ (Nat.le_add_right _ _), hnil _ (le_refl _)]
    rw [hsplit, List.suffix_append_self_iff]
  · have hempty : (z.tail.take z.origPadSz).drop (z.declaredTail zimg) = [] := by
      rw [List.drop_eq_nil_iff, List.length_take]
      omega
    rw [hempty]
    refine iff_of_true (List.IsSuffix.trans ?_ (List.suffix_append _ _)) (List.nil_suffix)
    have hmore : z.declaredTail zimg = z.origPadSz + (z.declaredTail zimg - z.origPadSz) := by omega
    rw [hmore, ← List.drop_drop]
    exact List.drop_suffix _ _

section Moved

variable (hne : z.tail ≠ []) (hpos : payloadSz ≠ 0) (hsame : payloadSz ≠ z.piggy.length)

include hne hpos hsame

theorem length_newTail_paddedTail : (z.newTail payloadSz).length = (z.paddedTail payloadSz).length := by
  rw [newTail_eq hne hpos hsame]
  split
  · exact length_foldl (length_patchGotEntry z payloadSz) _ _
  · rfl

/-- The words that are rewritten are those of the tail, as far as there is room for them. -/
theorem forall_sites_iff (p : Nat → Prop) :
    (∀ site ∈ (z.tracedTail payloadSz).sites, site + 4 ≤ (z.newTail payloadSz).length → p site) ↔
      (z.offLc0 ≠ 0 → ∀ k, z.origPadSz + 4 * k + 4 ≤ z.tail.length →
        z.Relocated (readU32 z.tail (z.origPadSz + 4 * k)) → p (z.newPadSz payloadSz + 4 * k)) := by
  have hlength : (z.paddedTail payloadSz).length
      = z.newPadSz payloadSz + (z.tail.length - z.origPadSz) := by
    rw [paddedTail_eq, List.length_append, length_zeros, List.length_drop]
  rw [length_newTail_paddedTail hne hpos hsame]
  constructor
  · intro hsites hlc0 k hk hrelocated
    refine hsites _ (mem_sites_tracedTail.2 ⟨?_, by rwa [readU32_paddedTail]⟩) (by omega)
    rw [gotEntries, if_neg (by tauto), words, List.mem_map]
    exact ⟨k, List.mem_range.2 (by omega), rfl⟩
  · intro hwords site hsite hroom
    obtain ⟨hentry, hrelocated⟩ := mem_sites_tracedTail.1 hsite
    rw [gotEntries] at hentry
    split at hentry
    · cases hentry
    · rename_i hmoved
      rw [words, List.mem_map] at hentry
      obtain ⟨k, -, rfl⟩ := hentry
      rw [readU32_paddedTail] at hrelocated
      exact hwords (by tauto) k (by omega) hrelocated

theorem drop_newTail {b : Nat}
    (hb : ∀ site ∈ (z.tracedTail payloadSz).sites, site + 4 ≤ (z.newTail payloadSz).length → site + 4 ≤ b) :
    (z.newTail payloadSz).drop b = (z.paddedTail payloadSz).drop b := by
  have hstart : (if z.tail = [] ∨ payloadSz = 0 ∨ payloadSz = z.piggy.length then z.tail
      else z.paddedTail payloadSz) = z.paddedTail payloadSz := if_neg (by tauto)
  obtain ⟨sites, hsites, -, -, hdrop⟩ := Traced.extends_foldl (z.extends_tracedGotEntry payloadSz)
    (z.gotEntries payloadSz) ⟨z.paddedTail payloadSz, []⟩
  have htraced : z.tracedTail payloadSz = (z.gotEntries payloadSz).foldl (z.tracedGotEntry payloadSz)
      ⟨z.paddedTail payloadSz, []⟩ := by rw [tracedTail, hstart]
  rw [← htraced, List.nil_append] at hsites
  rw [← htraced] at hdrop
  rw [hsites, length_newTail_paddedTail hne hpos hsame] at hb
  rw [← stub_tracedTail, hdrop b hb]

end Moved

end

/-- **What follows the declared image.** It survives if nothing moves, or if its bytes before the GOT are
zeros for which there is room in the new padding and none of its words looks like an address from the end of
the piggy on. -/
theorem keepsForeign_iff (hparse : parse zimg = some z)
    (hdeclared : readU32 zimg 0x2c - readU32 zimg 0x28 < zimg.length) (payloadSz : Nat) :
    KeepsForeign z zimg payloadSz ↔ payloadSz = 0 ∨ payloadSz = z.piggy.length ∨
      z.PaddingKept zimg payloadSz ∧ z.WordsKept zimg := by
  have hne := tail_ne_nil_of_parse hparse
  have hparts := congrArg List.length (parse_parts hparse).1
  rw [List.length_append, List.length_append] at hparts
  have hshort : z.declaredTail zimg ≤ z.tail.length := by
    rw [declaredTail]
    omega
  by_cases hstays : payloadSz = 0 ∨ payloadSz = z.piggy.length
  · have htail : z.newTail payloadSz = z.tail := by rw [newTail, if_pos (.inr hstays)]
    have hentries : z.gotEntries payloadSz = [] := if_pos (by tauto)
    refine iff_of_true ⟨?_, fun site hsite => ?_⟩ (by tauto)
    · rw [htail]
      exact List.drop_suffix _ _
    · have hentry := (mem_sites_tracedTail.1 hsite).1
      rw [hentries] at hentry
      cases hentry
  · obtain ⟨hpos, hsame⟩ := not_or.1 hstays
    have hlength : (z.newTail payloadSz).length
        = z.newPadSz payloadSz + (z.tail.length - z.origPadSz) := by
      rw [length_newTail_paddedTail hne hpos hsame, paddedTail_eq, List.length_append, length_zeros,
        List.length_drop]
    have hinside : (∀ site ∈ (z.tracedTail payloadSz).sites, site + 4 ≤ (z.newTail payloadSz).length →
        site + 4 + (z.tail.length - z.declaredTail zimg) ≤ (z.newTail payloadSz).length) ↔
          z.WordsKept zimg := by
      rw [forall_sites_iff hne hpos hsame
        (fun site => site + 4 + (z.tail.length - z.declaredTail zimg) ≤ (z.newTail payloadSz).length), hlength]
      refine imp_congr_right fun _ => forall_congr' fun k => imp_congr_right fun hroom => ?_
      constructor
      · intro hmoved hover hrelocated
        have hle := hmoved hrelocated
        omega
      · intro hkept hrelocated
        have hle : ¬ z.declaredTail zimg < z.origPadSz + 4 * k + 4 := fun hover => hkept hover hrelocated
        omega
    have hcopied : (∀ site ∈ (z.tracedTail payloadSz).sites, site + 4 ≤ (z.newTail payloadSz).length →
        site + 4 + (z.tail.length - z.declaredTail zimg) ≤ (z.newTail payloadSz).length) →
          (z.tail.drop (z.declaredTail zimg) <:+ z.newTail payloadSz ↔ z.PaddingKept zimg payloadSz) := by
      intro hsites
      rw [← suffix_paddedTail_iff, List.suffix_iff_eq_drop, List.suffix_iff_eq_drop, List.length_drop,
        ← length_newTail_paddedTail hne hpos hsame, drop_newTail hne hpos hsame]
      intro site hsite hroom
      have hle := hsites site hsite hroom
      omega
    constructor
    · intro hkeeps
      exact .inr (.inr ⟨(hcopied hkeeps.inside).1 hkeeps.copied, hinside.1 hkeeps.inside⟩)
    · intro hcond
      obtain ⟨hpadding, hwords⟩ := (hcond.resolve_left hpos).resolve_left hsame
      exact ⟨(hcopied (hinside.2 hwords)).2 hpadding, hinside.2 hwords⟩

def foreignZImage (word : Nat) : ZImage where
  head := zeros 36 ++ leBytes 4 0x016f2818 ++ zeros 4 ++ leBytes 4 0x70 ++ leBytes 4 0x30
    ++ leBytes 4 0x70 ++ leBytes 4 0x70 ++ zeros 8 ++ leBytes 4 0x60 ++ leBytes 4 0x68 ++ zeros 4
  piggy := xzMagic ++ zeros 11
  tail := leBytes 4 0x60 ++ zeros 12 ++ leBytes 4 word
  fmt := .xz
  offInflatedSize := 0
  offLc0 := 0x30
  offLc1 := 0
  offTable := 0

def foreignFile (word : Nat) : List UInt8 :=
  (foreignZImage word).head ++ (foreignZImage word).piggy ++ (foreignZImage word).tail

theorem keepsForeign_zero : KeepsForeign (foreignZImage 0) (foreignFile 0) 20 := by
  have hpad : (foreignZImage 0).origPadSz = 0 := by decide
  have hdeclared : (foreignZImage 0).declaredTail (foreignFile 0) = 16 := by rfl
  have hlength : (foreignZImage 0).tail.length = 20 := by rfl
  refine (keepsForeign_iff (by rfl) (by decide) 20).2 (.inr (.inr ⟨?_, fun _ k hroom hover => ?_⟩))
  · rw [PaddingKept, hpad, List.take_zero, List.drop_nil]
    exact List.nil_suffix
  · have hlast : k = 4 := by omega
    subst hlast
    decide

theorem not_keepsForeign_ones :
    parse (foreignFile 0xffffffff) = some (foreignZImage 0xffffffff) ∧
      readU32 (foreignFile 0xffffffff) 0x2c - readU32 (foreignFile 0xffffffff) 0x28
        < (foreignFile 0xffffffff).length ∧
      ¬ KeepsForeign (foreignZImage 0xffffffff) (foreignFile 0xffffffff) 20 := by
  refine ⟨by rfl, by decide, fun hkeeps => ?_⟩
  exact absurd hkeeps.copied (by decide)

end MagiskNative.Boot.ZImage
