import MagiskNative.Cpio.Basic

/-!
# Where loading an archive aborts

`load_from_data` slices the data at positions that it computes from the sizes in the headers, and it
never compares them with the length of the data. So it aborts exactly on an archive that is cut off:
whole records, and then one of which the header, the name, the content, or the padding behind the name
of a trailer is not all there.
-/

namespace MagiskNative.Cpio

open Bytes Outcome

variable {name : String} {nameSz : Nat}

inductive Reaches (data : List UInt8) : Nat → Prop
  | start : Reaches data 0
  | next {pos next : Nat} {step : Step} (hpos : Reaches data pos) (hlt : pos < data.length)
      (hstep : loadStep data pos = .ok step) (hnext : step.next? = some next) : Reaches data next

structure Named (data : List UInt8) (hdr nameSz : Nat) (name : String) : Prop where
  magic_eq : (data.drop hdr).take 6 = magic
  nameSz_eq : x8u (field data hdr 94) = .ok nameSz
  name_eq : utf8CStr ((data.drop (hdr + headerSize)).take nameSz) = some name

def HexFields (data : List UInt8) (hdr : Nat) : Prop :=
  ∀ offset ∈ [14, 22, 30, 78, 86], ∃ value, x8u (field data hdr offset) = .ok value

/-- The data ends inside the record that starts at `hdr`. -/
inductive CutOff (data : List UInt8) (hdr : Nat) : Prop
  | head (hlt : hdr < data.length) (hcut : data.length < hdr + headerSize)
  | name {nameSz : Nat} (hmagic : (data.drop hdr).take 6 = magic)
      (hsize : x8u (field data hdr 94) = .ok nameSz)
      (hcut : data.length < hdr + headerSize + nameSz)
  | trailer {nameSz : Nat} (hnamed : Named data hdr nameSz "TRAILER!!!")
      (hcut : data.length < align4 (hdr + headerSize + nameSz))
  | content {nameSz fileSz : Nat} {name : String} (hnamed : Named data hdr nameSz name)
      (hname : name ∉ [".", "..", "TRAILER!!!"]) (hsize : x8u (field data hdr 54) = .ok fileSz)
      (hfields : HexFields data hdr)
      (hcut : data.length < align4 (hdr + headerSize + nameSz) + fileSz)

theorem CutOff.lt {data : List UInt8} {hdr : Nat} (hcut : CutOff data hdr) : hdr < data.length := by
  have hmagic : (data.drop hdr).take 6 = magic → hdr < data.length := by
    intro hmagic
    by_contra hle
    rw [List.drop_of_length_le (Nat.not_lt.1 hle)] at hmagic
    cases hmagic
  cases hcut with
  | head hlt _ => exact hlt
  | name h _ _ => exact hmagic h
  | trailer h _ => exact hmagic h.magic_eq
  | content h _ _ _ _ => exact hmagic h.magic_eq

/-- A record as it stands in an archive. Behind the name of a trailer the body is what comes before the
next magic. -/
structure Record where
  head : List UInt8
  name : List UInt8
  gap : List UInt8
  body : List UInt8
  fill : List UInt8

namespace Record

def text (r : Record) : List UInt8 := r.head ++ r.name ++ r.gap ++ r.body ++ r.fill

/-- The record is all there, at `pos` of the archive and before `behind`. -/
structure Whole (r : Record) (pos : Nat) (behind : List UInt8) : Prop where
  length_head : r.head.length = headerSize
  gap_eq : pos + (r.head ++ r.name ++ r.gap).length = align4 (pos + headerSize + r.name.length)
  kind :
    (∃ title, Named (r.head ++ r.name) 0 r.name.length title ∧ title ∈ [".", ".."] ∧
        r.body = [] ∧ r.fill = []) ∨
    (Named (r.head ++ r.name) 0 r.name.length "TRAILER!!!" ∧
        find magic (r.body ++ behind) = some r.body.length ∧ r.fill = []) ∨
    ∃ title, Named (r.head ++ r.name) 0 r.name.length title ∧ title ∉ [".", "..", "TRAILER!!!"] ∧
        x8u (field r.head 0 54) = .ok r.body.length ∧ HexFields r.head 0 ∧
        pos + r.text.length = align4 (pos + (r.head ++ r.name ++ r.gap ++ r.body).length)

end Record

/-- Whole records, one behind the other from `pos` on, and then `rest`. -/
def Records : Nat → List Record → List UInt8 → Prop
  | _, [], _ => True
  | pos, r :: records, rest =>
      r.Whole pos (records.flatMap Record.text ++ rest) ∧ Records (pos + r.text.length) records rest

section Round

variable {data : List UInt8} {hdr pos : Nat}

theorem hexFields_of {mode uid gid major minor : Nat} (hmode : x8u (field data hdr 14) = .ok mode)
    (huid : x8u (field data hdr 22) = .ok uid) (hgid : x8u (field data hdr 30) = .ok gid)
    (hmajor : x8u (field data hdr 78) = .ok major) (hminor : x8u (field data hdr 86) = .ok minor) :
    HexFields data hdr := by
  intro offset hoffset
  simp only [List.mem_cons, List.not_mem_nil, or_false] at hoffset
  rcases hoffset with rfl | rfl | rfl | rfl | rfl
  · exact ⟨mode, hmode⟩
  · exact ⟨uid, huid⟩
  · exact ⟨gid, hgid⟩
  · exact ⟨major, hmajor⟩
  · exact ⟨minor, hminor⟩

theorem x8u_bind_ne_panic_iff {α : Type} {x : List UInt8} {f : Nat → Outcome LoadError α} :
    (x8u x >>= f) ≠ .panic ↔ ∀ value, x8u x = .ok value → f value ≠ .panic := by
  rw [bind_ne_panic_iff]
  exact ⟨fun h => h.2, fun h => ⟨ofOption_ne_panic _ _, h⟩⟩

theorem loadTrailer_ne_panic_iff : loadTrailer data pos ≠ .panic ↔ pos ≤ data.length := by
  rw [loadTrailer, assert_bind_ne_panic_iff]
  constructor
  · exact fun h => h.1
  · intro hle
    refine ⟨hle, ?_⟩
    split <;> exact fun h => by cases h

theorem loadEntry_ne_panic_iff :
    loadEntry data hdr pos name ≠ .panic ↔
      ∀ fileSz, x8u (field data hdr 54) = .ok fileSz → HexFields data hdr → pos + fileSz ≤ data.length := by
  simp only [loadEntry, x8u_bind_ne_panic_iff, assert_bind_ne_panic_iff]
  constructor
  · intro h fileSz hfileSz hfields
    obtain ⟨mode, hmode⟩ := hfields 14 (by decide)
    obtain ⟨uid, huid⟩ := hfields 22 (by decide)
    obtain ⟨gid, hgid⟩ := hfields 30 (by decide)
    obtain ⟨major, hmajor⟩ := hfields 78 (by decide)
    obtain ⟨minor, hminor⟩ := hfields 86 (by decide)
    exact (h fileSz hfileSz mode hmode uid huid gid hgid major hmajor minor hminor).1
  · intro h fileSz hfileSz mode hmode uid huid gid hgid major hmajor minor hminor
    refine ⟨h fileSz hfileSz ?_, fun hpanic => by cases hpanic⟩
    exact hexFields_of hmode huid hgid hmajor hminor

/-- One round of the loop aborts exactly at a record that is cut off. -/
theorem loadStep_ne_panic_iff (hlt : hdr < data.length) : loadStep data hdr ≠ .panic ↔ ¬ CutOff data hdr := by
  rw [loadStep, assert_bind_ne_panic_iff]
  by_cases hmagic : (data.drop hdr).take 6 = magic
  · rw [if_neg (not_not.2 hmagic), x8u_bind_ne_panic_iff]
    constructor
    · rintro ⟨hheader, hrest⟩ hcut
      have hnamed : ∀ nameSz name, Named data hdr nameSz name → _ := fun nameSz name hnamed =>
        (Outcome.bind_ne_panic_iff.1 (Outcome.assert_bind_ne_panic_iff.1
          (hrest nameSz hnamed.nameSz_eq)).2).2 name (Outcome.ofOption_eq_ok.2 hnamed.name_eq)
      cases hcut with
      | head _ hcut => omega
      | name _ hsize hcut =>
          have := (Outcome.assert_bind_ne_panic_iff.1 (hrest _ hsize)).1
          omega
      | trailer hname hcut =>
          have htrailer := hnamed _ _ hname
          rw [if_neg (by decide), if_pos rfl, loadTrailer_ne_panic_iff] at htrailer
          omega
      | content hname hother hsize hfields hcut =>
          have hentry := hnamed _ _ hname
          simp only [List.mem_cons, List.not_mem_nil, or_false, not_or] at hother
          rw [if_neg (not_or.2 ⟨hother.1, hother.2.1⟩), if_neg hother.2.2, loadEntry_ne_panic_iff] at hentry
          have := hentry _ hsize hfields
          omega
    · intro hcut
      refine ⟨by_contra fun h => hcut (.head hlt (by omega)), fun nameSz hsize => ?_⟩
      refine Outcome.assert_bind_ne_panic_iff.2
        ⟨by_contra fun h => hcut (.name hmagic hsize (by omega)), ?_⟩
      refine Outcome.bind_ne_panic_iff.2 ⟨ofOption_ne_panic _ _, fun name hname => ?_⟩
      have hnamed : Named data hdr nameSz name := ⟨hmagic, hsize, Outcome.ofOption_eq_ok.1 hname⟩
      split
      · exact fun h => by cases h
      · rename_i hdots
        split
        · rename_i htrailer
          subst htrailer
          exact loadTrailer_ne_panic_iff.2 (by_contra fun h => hcut (.trailer hnamed (by omega)))
        · rename_i htrailer
          refine loadEntry_ne_panic_iff.2 fun fileSz hfileSz hfields => by_contra fun h => hcut ?_
          exact .content hnamed (by simp_all) hfileSz hfields (by omega)
  · rw [if_pos hmagic]
    constructor
    · rintro ⟨hheader, -⟩ hcut
      cases hcut with
      | head _ hcut => omega
      | name h _ _ => exact hmagic h
      | trailer h _ => exact hmagic h.magic_eq
      | content h _ _ _ _ => exact hmagic h.magic_eq
    · intro hcut
      exact ⟨by_contra fun h => hcut (.head hlt (by omega)), fun h => by cases h⟩

end Round

section Advance

variable {data : List UInt8} {hdr next pos : Nat}

/-- Where the loop goes on behind the name, which ends at `pos` with its padding. -/
inductive Leads (data : List UInt8) (hdr pos : Nat) : String → Nat → Prop
  | dots {name : String} (hname : name ∈ [".", ".."]) : Leads data hdr pos name pos
  | trailer {x : Nat} (hpos : pos ≤ data.length) (hfind : find magic (data.drop pos) = some x) :
      Leads data hdr pos "TRAILER!!!" (pos + x)
  | file {name : String} {fileSz : Nat} (hname : name ∉ [".", "..", "TRAILER!!!"])
      (hsize : x8u (field data hdr 54) = .ok fileSz) (hfields : HexFields data hdr)
      (hend : pos + fileSz ≤ data.length) : Leads data hdr pos name (align4 (pos + fileSz))

theorem leads_of_loadStep {step : Step} (hstep : loadStep data hdr = .ok step)
    (hnext : step.next? = some next) :
    hdr + headerSize ≤ data.length ∧ ∃ nameSz name, Named data hdr nameSz name ∧
      hdr + headerSize + nameSz ≤ data.length ∧
      Leads data hdr (align4 (hdr + headerSize + nameSz)) name next := by
  simp only [loadStep, bind_eq_ok, assert_eq_ok] at hstep
  obtain ⟨-, hheader, hstep⟩ := hstep
  split at hstep
  · cases hstep
  · rename_i hmagic
    simp only [bind_eq_ok, assert_eq_ok, ofOption_eq_ok] at hstep
    obtain ⟨nameSz, hsize, -, hend, name, hname, hstep⟩ := hstep
    refine ⟨hheader, nameSz, name, ⟨not_not.1 hmagic, hsize, hname⟩, hend, ?_⟩
    split at hstep
    · rename_i hdots
      cases hstep
      cases hnext
      exact .dots (by simpa using hdots)
    · rename_i hdots
      split at hstep
      · rename_i htrailer
        subst htrailer
        simp only [loadTrailer, bind_eq_ok, assert_eq_ok] at hstep
        obtain ⟨-, hpos, hstep⟩ := hstep
        split at hstep
        · rename_i x hfind
          cases hstep
          cases hnext
          exact .trailer hpos hfind
        · cases hstep
          cases hnext
      · rename_i htrailer
        simp only [loadEntry, bind_eq_ok, assert_eq_ok, pure_eq,
          Outcome.ok.injEq] at hstep
        obtain ⟨fileSz, hfileSz, mode, hmode, uid, huid, gid, hgid, major, hmajor, minor, hminor, -, hend, rfl⟩ :=
          hstep
        cases hnext
        exact .file (by simp_all) hfileSz (hexFields_of hmode huid hgid hmajor hminor) hend

theorem exists_loadStep_of_leads (hnamed : Named data hdr nameSz name)
    (hheader : hdr + headerSize ≤ data.length) (hend : hdr + headerSize + nameSz ≤ data.length)
    (hleads : Leads data hdr (align4 (hdr + headerSize + nameSz)) name next) :
    ∃ step, loadStep data hdr = .ok step ∧ step.next? = some next := by
  rw [loadStep, assert_of hheader, ok_bind, if_neg (not_not.2 hnamed.magic_eq),
    hnamed.nameSz_eq, ok_bind, assert_of hend, ok_bind, hnamed.name_eq,
    ofOption_some, ok_bind]
  cases hleads with
  | dots hname => exact ⟨_, if_pos (by simpa using hname), rfl⟩
  | trailer hpos hfind =>
      rw [if_neg (by decide), if_pos rfl, loadTrailer, assert_of hpos, ok_bind, hfind]
      exact ⟨_, rfl, rfl⟩
  | file hname hsize hfields hfile =>
      simp only [List.mem_cons, List.not_mem_nil, or_false, not_or] at hname
      obtain ⟨mode, hmode⟩ := hfields 14 (by decide)
      obtain ⟨uid, huid⟩ := hfields 22 (by decide)
      obtain ⟨gid, hgid⟩ := hfields 30 (by decide)
      obtain ⟨major, hmajor⟩ := hfields 78 (by decide)
      obtain ⟨minor, hminor⟩ := hfields 86 (by decide)
      rw [if_neg (not_or.2 ⟨hname.1, hname.2.1⟩), if_neg hname.2.2, loadEntry]
      simp only [hsize, hmode, huid, hgid, hmajor, hminor, assert_of hfile, ok_bind,
        pure_eq]
      exact ⟨_, rfl, rfl⟩

section

variable {text behind : List UInt8} (hdata : data.drop hdr = text ++ behind)

include hdata

theorem take_drop_of_eq {offset n : Nat} (hle : offset + n ≤ text.length) :
    (data.drop (hdr + offset)).take n = (text.drop offset).take n := by
  rw [← List.drop_drop, hdata, List.drop_append_of_le_length (by omega), List.take_append_of_le_length]
  rw [List.length_drop]
  omega

/-- What a header says can be read from the record alone. -/
theorem field_eq (hlength : headerSize ≤ text.length) {offset : Nat} (hoffset : offset + 8 ≤ headerSize) :
    field data hdr offset = field text 0 offset := by
  rw [field, field, take_drop_of_eq hdata (by omega), Nat.zero_add]

theorem hexFields_iff (hlength : headerSize ≤ text.length) : HexFields data hdr ↔ HexFields text 0 := by
  refine forall₂_congr fun offset hoffset => ?_
  have hle : offset + 8 ≤ headerSize := by
    revert offset
    decide
  rw [field_eq hdata hlength hle]

theorem named_iff (hlength : headerSize + nameSz ≤ text.length) :
    Named data hdr nameSz name ↔ Named text 0 nameSz name := by
  have hheader : headerSize = 110 := rfl
  have hmagic : (data.drop (hdr + 0)).take 6 = (text.drop 0).take 6 := take_drop_of_eq hdata (by omega)
  have hsize : field data hdr 94 = field text 0 94 := field_eq hdata (by omega) (by decide)
  have hname := take_drop_of_eq hdata hlength
  rw [Nat.add_zero] at hmagic
  constructor
  · rintro ⟨h1, h2, h3⟩
    exact ⟨hmagic ▸ h1, hsize ▸ h2, by rw [Nat.zero_add]; exact hname ▸ h3⟩
  · rintro ⟨h1, h2, h3⟩
    rw [Nat.zero_add] at h3
    exact ⟨hmagic ▸ h1, hsize ▸ h2, hname ▸ h3⟩

end

/-- The loop passes a whole record. -/
theorem exists_loadStep_of_whole {r : Record} {behind : List UInt8} (hwhole : r.Whole hdr behind)
    (hdata : data.drop hdr = r.text ++ behind) :
    ∃ step, loadStep data hdr = .ok step ∧ step.next? = some (hdr + r.text.length) := by
  obtain ⟨hhead, hgap, hkind⟩ := hwhole
  have hpos : data.drop (align4 (hdr + headerSize + r.name.length)) = r.body ++ r.fill ++ behind := by
    rw [← hgap]
    apply drop_add_of_drop_eq
    rw [hdata, Record.text]
    simp only [List.append_assoc]
  have hlength := congrArg List.length hdata
  simp only [Record.text, List.length_drop, List.length_append] at hlength
  simp only [List.length_append] at hgap
  have hheader : headerSize = 110 := rfl
  have htext : data.drop hdr = (r.head ++ r.name) ++ (r.gap ++ r.body ++ r.fill ++ behind) := by
    rw [hdata, Record.text]
    simp only [List.append_assoc]
  have hnamed : ∀ title, Named (r.head ++ r.name) 0 r.name.length title → Named data hdr r.name.length title :=
    fun title => (named_iff htext (by rw [List.length_append, hhead])).2
  rcases hkind with ⟨title, htitle, hdots, hbody, hfill⟩ | ⟨htitle, hfind, hfill⟩
    | ⟨title, htitle, hother, hsize, hfields, hend⟩
  · refine exists_loadStep_of_leads (hnamed title htitle) (by omega) (by omega) ?_
    have : hdr + r.text.length = align4 (hdr + headerSize + r.name.length) := by
      rw [Record.text, hbody, hfill]
      simp only [List.length_append, List.length_nil]
      omega
    rw [this]
    exact .dots hdots
  · refine exists_loadStep_of_leads (hnamed _ htitle) (by omega) (by omega) ?_
    have : hdr + r.text.length = align4 (hdr + headerSize + r.name.length) + r.body.length := by
      rw [Record.text, hfill]
      simp only [List.length_append, List.length_nil]
      omega
    rw [this]
    rw [hfill, List.append_nil] at hpos
    exact .trailer (by omega) (by rw [hpos, hfind])
  · refine exists_loadStep_of_leads (hnamed title htitle) (by omega) (by omega) ?_
    have hrecord : data.drop hdr = r.head ++ (r.name ++ r.gap ++ r.body ++ r.fill ++ behind) := by
      rw [htext]
      simp only [List.append_assoc]
    rw [hend]
    simp only [List.length_append]
    rw [show hdr + (r.head.length + r.name.length + r.gap.length + r.body.length)
      = align4 (hdr + headerSize + r.name.length) + r.body.length by omega]
    exact .file hother (by rw [field_eq hrecord hhead.ge (by decide), hsize])
      ((hexFields_iff hrecord hhead.ge).2 hfields) (by omega)

/-- The record that five slices in a row make. -/
def Record.cut (data : List UInt8) (hdr nameSz gap body fill : Nat) : Record where
  head := slice data hdr headerSize
  name := slice data (hdr + headerSize) nameSz
  gap := slice data (hdr + headerSize + nameSz) gap
  body := slice data (hdr + headerSize + nameSz + gap) body
  fill := slice data (hdr + headerSize + nameSz + gap + body) fill

theorem text_cut (data : List UInt8) (hdr nameSz gap body fill : Nat) :
    (Record.cut data hdr nameSz gap body fill).text
      = slice data hdr (headerSize + nameSz + gap + body + fill) := by
  simp only [Record.text, Record.cut, slice_add, Nat.add_assoc, List.append_assoc]

theorem cut_append {gap body fill : Nat}
    (hnext : next = hdr + (headerSize + nameSz + gap + body + fill)) :
    data.drop hdr = (Record.cut data hdr nameSz gap body fill).text ++ data.drop next := by
  rw [text_cut, hnext, slice_append_drop]

theorem whole_cut {gap body fill : Nat} (hnamed : Named data hdr nameSz name)
    (hgap : align4 (hdr + headerSize + nameSz) = hdr + headerSize + nameSz + gap)
    (hnext : next = hdr + (headerSize + nameSz + gap + body + fill)) (hle : next ≤ data.length)
    (hkind : name ∈ [".", ".."] ∧ body = 0 ∧ fill = 0 ∨
      name = "TRAILER!!!" ∧ find magic (data.drop (hdr + headerSize + nameSz + gap)) = some body ∧ fill = 0 ∨
      name ∉ [".", "..", "TRAILER!!!"] ∧ x8u (field data hdr 54) = .ok body ∧ HexFields data hdr ∧
        next = align4 (hdr + headerSize + nameSz + gap + body)) :
    (Record.cut data hdr nameSz gap body fill).Whole hdr (data.drop next) := by
  have htext := congrArg List.length (text_cut data hdr nameSz gap body fill)
  rw [length_slice_of_le (by omega)] at htext
  have hhead : (slice data hdr headerSize).length = headerSize := length_slice_of_le (by omega)
  have hname : (slice data (hdr + headerSize) nameSz).length = nameSz := length_slice_of_le (by omega)
  have hgapSz : (slice data (hdr + headerSize + nameSz) gap).length = gap := length_slice_of_le (by omega)
  have hbody : (slice data (hdr + headerSize + nameSz + gap) body).length = body :=
    length_slice_of_le (by omega)
  have hrecord := (slice_append_drop data hdr headerSize).symm
  have hnamed' : Named (slice data hdr headerSize ++ slice data (hdr + headerSize) nameSz) 0
      (slice data (hdr + headerSize) nameSz).length name := by
    rw [hname]
    refine (named_iff (?_ : data.drop hdr = _ ++ data.drop (hdr + (headerSize + nameSz))) ?_).1 hnamed
    · rw [← slice_add, slice_append_drop]
    · rw [List.length_append, hhead, hname]
  refine ⟨hhead, ?_, ?_⟩
  · simp only [Record.cut, List.length_append, hhead, hname, hgapSz]
    omega
  · rcases hkind with ⟨hdots, rfl, rfl⟩ | ⟨rfl, hfind, rfl⟩ | ⟨hother, hsize, hfields, hend⟩
    · exact .inl ⟨name, hnamed', hdots, rfl, rfl⟩
    · refine .inr (.inl ⟨hnamed', ?_, rfl⟩)
      simp only [Record.cut, hbody]
      rw [hnext, show hdr + (headerSize + nameSz + gap + body + 0)
        = hdr + headerSize + nameSz + gap + body by omega, slice_append_drop]
      exact hfind
    · refine .inr (.inr ⟨name, hnamed', hother, ?_, ?_, ?_⟩)
      · simp only [Record.cut, hbody]
        rw [← field_eq hrecord hhead.ge (by decide)]
        exact hsize
      · exact (hexFields_iff hrecord hhead.ge).1 hfields
      · rw [htext]
        simp only [Record.cut, List.length_append, hhead, hname, hgapSz, hbody]
        rw [← hnext, hend]
        congr 1
        omega

/-- What the loop passes is a whole record. -/
theorem exists_whole_of_loadStep {step : Step} (hstep : loadStep data hdr = .ok step)
    (hnext : step.next? = some next) (hle : next ≤ data.length) :
    ∃ r : Record, r.Whole hdr (data.drop next) ∧ data.drop hdr = r.text ++ data.drop next ∧
      next = hdr + r.text.length := by
  obtain ⟨hheader, nameSz, name, hnamed, hend, hleads⟩ := leads_of_loadStep hstep hnext
  obtain ⟨gap, hgap⟩ : ∃ gap, align4 (hdr + headerSize + nameSz) = hdr + headerSize + nameSz + gap :=
    ⟨_, (Nat.add_sub_cancel' (le_align4 _)).symm⟩
  obtain ⟨body, fill, heq, hkind⟩ : ∃ body fill,
      next = hdr + (headerSize + nameSz + gap + body + fill) ∧
      (name ∈ [".", ".."] ∧ body = 0 ∧ fill = 0 ∨
      name = "TRAILER!!!" ∧ find magic (data.drop (hdr + headerSize + nameSz + gap)) = some body ∧ fill = 0 ∨
      name ∉ [".", "..", "TRAILER!!!"] ∧ x8u (field data hdr 54) = .ok body ∧ HexFields data hdr ∧
        next = align4 (hdr + headerSize + nameSz + gap + body)) := by
    rw [hgap] at hleads
    cases hleads with
    | dots hdots => exact ⟨0, 0, by omega, .inl ⟨hdots, rfl, rfl⟩⟩
    | trailer _ hfind => exact ⟨_, 0, by omega, .inr (.inl ⟨rfl, hfind, rfl⟩)⟩
    | @file _ fileSz hother hsize hfields _ =>
        have := le_align4 (hdr + headerSize + nameSz + gap + fileSz)
        exact ⟨fileSz, align4 (hdr + headerSize + nameSz + gap + fileSz)
          - (hdr + headerSize + nameSz + gap + fileSz), by omega, .inr (.inr ⟨hother, hsize, hfields, rfl⟩)⟩
  refine ⟨_, whole_cut hnamed hgap heq hle hkind, cut_append heq, ?_⟩
  rw [text_cut, length_slice_of_le (by omega)]
  exact heq

theorem records_append_singleton (pos : Nat) (records : List Record) (r : Record) (rest : List UInt8) :
    Records pos (records ++ [r]) rest ↔ Records pos records (r.text ++ rest) ∧
      r.Whole (pos + (records.flatMap Record.text).length) rest := by
  induction records generalizing pos with
  | nil => simp [Records]
  | cons r' records ih =>
      simp only [List.cons_append, Records, ih, List.flatMap_append, List.flatMap_cons, List.flatMap_nil,
        List.append_nil, List.append_assoc, List.length_append, Nat.add_assoc, and_assoc]

theorem exists_records_of_reaches (hpos : Reaches data pos) (hle : pos ≤ data.length) :
    ∃ records, data = records.flatMap Record.text ++ data.drop pos ∧ Records 0 records (data.drop pos) ∧
      pos = (records.flatMap Record.text).length := by
  induction hpos with
  | start => exact ⟨[], rfl, trivial, rfl⟩
  | next _ hlt hstep hnext ih =>
      obtain ⟨records, hdata, hrecords, hpos⟩ := ih hlt.le
      obtain ⟨r, hwhole, hdrop, hend⟩ := exists_whole_of_loadStep hstep hnext hle
      refine ⟨records ++ [r], ?_, ?_, ?_⟩
      · rw [List.flatMap_append, List.flatMap_singleton, List.append_assoc, ← hdrop]
        exact hdata
      · rw [records_append_singleton, ← hdrop, Nat.zero_add, ← hpos]
        exact ⟨hrecords, hwhole⟩
      · rw [List.flatMap_append, List.flatMap_singleton, List.length_append, ← hpos]
        exact hend

theorem reaches_of_records {records : List Record} {rest : List UInt8} (hpos : Reaches data pos)
    (hdata : data.drop pos = records.flatMap Record.text ++ rest) (hrecords : Records pos records rest) :
    Reaches data (pos + (records.flatMap Record.text).length) := by
  induction records generalizing pos with
  | nil => exact hpos
  | cons r records ih =>
      obtain ⟨hwhole, hrecords⟩ := hrecords
      rw [List.flatMap_cons, List.append_assoc] at hdata
      obtain ⟨step, hstep, hnext⟩ := exists_loadStep_of_whole hwhole hdata
      have hlt : pos < data.length := by
        have hlength := congrArg List.length hdata
        have hhead := hwhole.length_head
        simp only [Record.text, List.length_drop, List.length_append, headerSize] at hlength hhead
        omega
      rw [List.flatMap_cons, List.length_append, ← Nat.add_assoc]
      exact ih (hpos.next hlt hstep hnext) (drop_add_of_drop_eq hdata) hrecords

end Advance

section Load

variable {data : List UInt8} {pos : Nat}

theorem loadLoop_panic (hpos : pos < data.length) (hstep : loadStep data pos = .panic)
    (entries : CpioEntries) : loadLoop data pos entries = .panic := by
  rw [loadLoop, if_pos hpos]
  split <;> simp_all

theorem Reaches.exists_loadLoop (hpos : Reaches data pos) :
    ∃ entries, loadLoop data pos entries = loadLoop data 0 ∅ := by
  induction hpos with
  | start => exact ⟨∅, rfl⟩
  | @next pos next step _ hlt hstep hnext ih =>
      obtain ⟨entries, hentries⟩ := ih
      cases step with
      | skip pos' =>
          cases hnext
          exact ⟨entries, (loadLoop_skip hlt hstep entries).symm.trans hentries⟩
      | entry name entry pos' =>
          cases hnext
          exact ⟨entries.insert name entry, (loadLoop_entry hlt hstep entries).symm.trans hentries⟩
      | stop => cases hnext

theorem loadLoop_ne_panic
    (hinside : ∀ pos, Reaches data pos → pos < data.length → loadStep data pos ≠ .panic)
    (hpos : Reaches data pos) (entries : CpioEntries) : loadLoop data pos entries ≠ .panic := by
  induction hn : data.length - pos using Nat.strong_induction_on generalizing pos entries with
  | _ n ih =>
      by_cases hlt : pos < data.length
      · cases hstep : loadStep data pos with
        | ok step =>
            cases step with
            | skip next =>
                have hless := lt_of_loadStep hstep rfl
                rw [loadLoop_skip hlt hstep]
                exact ih _ (by omega) (hpos.next hlt hstep rfl) entries rfl
            | entry name entry next =>
                have hless := lt_of_loadStep hstep rfl
                rw [loadLoop_entry hlt hstep]
                exact ih _ (by omega) (hpos.next hlt hstep rfl) _ rfl
            | stop =>
                rw [loadLoop_stop hlt hstep]
                exact fun h => by cases h
        | err e =>
            rw [loadLoop_err hlt hstep]
            exact fun h => by cases h
        | panic => exact absurd hstep (hinside pos hpos hlt)
      · rw [loadLoop, if_neg hlt]
        exact fun h => by cases h

theorem loadFromData_eq_panic_iff : loadFromData data = .panic ↔ loadLoop data 0 ∅ = .panic := by
  rw [loadFromData]
  split <;> simp_all

/-- **When loading returns.** It does exactly if the data is not cut off inside a record: whole records
are never followed by a part of one. -/
theorem loadFromData_ne_panic_iff (data : List UInt8) :
    loadFromData data ≠ .panic ↔ ∀ records rest, data = records.flatMap Record.text ++ rest →
      Records 0 records rest → ¬ CutOff data (records.flatMap Record.text).length := by
  rw [ne_eq, loadFromData_eq_panic_iff]
  constructor
  · intro hload records rest hdata hrecords hcut
    have hpos := reaches_of_records (.start : Reaches data 0) hdata hrecords
    rw [Nat.zero_add] at hpos
    obtain ⟨entries, hentries⟩ := hpos.exists_loadLoop
    refine (loadStep_ne_panic_iff hcut.lt).1 (fun hstep => hload ?_) hcut
    rw [← hentries, loadLoop_panic hcut.lt hstep]
  · intro hcut
    refine loadLoop_ne_panic (fun pos hpos hlt => ?_) .start ∅
    obtain ⟨records, hdata, hrecords, hlength⟩ := exists_records_of_reaches hpos hlt.le
    have := hcut records _ hdata hrecords
    rw [← hlength] at this
    exact (loadStep_ne_panic_iff hlt).2 this

end Load

theorem loadFromData_byte : loadFromData [0x30] = .panic := by
  rw [loadFromData_eq_panic_iff]
  exact loadLoop_panic (by decide) rfl ∅

end MagiskNative.Cpio
