import MagiskNative.Cpio.Restore

/-!
# What a stored name tells

`restore` takes an entry under `.backup/` to be compressed if its name ends with `.xz` and its data can be
unpacked, and it takes two names for its own. An entry that was stored as it is can have any of these names.
-/

namespace MagiskNative.Cpio

open Text OrderedMap Std.ExtTreeMap

section Stored

variable {xz : Xz} {o self : CpioEntries} {name : String} {entry : CpioEntry}

theorem getElem?_dir_rm (entries : CpioEntries) (name : String) :
    (rm entries ".backup" true)[".backup/" ++ name]? = none := by
  have hnorm : normPath ".backup" = ".backup" := by decide
  rw [getElem?_rm, hnorm]
  exact if_pos (.inr ⟨rfl, startsWith_append _ _⟩)

theorem dir_append_ne_dir (name : String) : ".backup/" ++ name ≠ ".backup" := by
  intro h
  have hstart := startsWith_append ".backup/" name
  rw [h] at hstart
  exact absurd hstart (by decide)

theorem stored_gathered_iff :
    (gathered xz true o self).stored[".backup/" ++ name]? = some entry ↔
      Changed o self name entry := by
  have hof : ∀ {e : CpioEntry}, (gathered xz true o self).stored[".backup/" ++ name]? = some e →
      Changed o self name e := by
    intro e hget
    rcases changed_of_stored_gathered hget with hdir | ⟨name', entry', hchanged, hstored⟩
    · exact absurd hdir (dir_append_ne_dir name)
    · obtain ⟨hkey, rfl⟩ : ".backup/" ++ name' = ".backup/" ++ name ∧ entry' = e :=
        Prod.mk.inj hstored
      rwa [append_left_cancel hkey] at hchanged
  constructor
  · exact hof
  · intro hchanged
    obtain ⟨e, he⟩ := Option.isSome_iff_exists.1 (stored_gathered_of_changed xz true hchanged)
    rw [show (storedAs xz true name entry).1 = ".backup/" ++ name from rfl] at he
    rw [he]
    exact (hof he).1.symm.trans hchanged.1

theorem getElem?_backupEntries_dir (xz : Xz) (hname : name ≠ ".rmlist") :
    (backupEntries xz true o self)[".backup/" ++ name]? = some entry ↔
      Changed (rm o ".backup" true) (rm self ".backup" true) name entry := by
  rw [getElem?_backupEntries_rm, if_neg, getElem?_dir_rm, Option.or_none, stored_gathered_iff]
  rintro ⟨hkey, -⟩
  have hlist : ".backup/" ++ name = ".backup/" ++ ".rmlist" := hkey
  exact hname (append_left_cancel hlist)

/-- `restore` takes the entry for what it is. -/
structure Plain (xz : Xz) (name : String) (entry : CpioEntry) : Prop where
  ne_rmlist : name ≠ ".rmlist"
  ne_magisk : name ≠ ".magisk"
  not_packed : EndsWith name ".xz" → entry.decompress xz = none

theorem ne_of_endsWith_xz {special : String} (hspecial : ¬ EndsWith special ".xz") :
    name ++ ".xz" ≠ special := by
  rintro rfl
  exact hspecial (endsWith_append _ _)

theorem exists_dir_append {k : String} (hstart : StartsWith k ".backup/") :
    ∃ n, k = ".backup/" ++ n := by
  obtain ⟨rest, hrest⟩ := hstart
  refine ⟨String.ofList rest, String.toList_inj.1 ?_⟩
  rw [← hrest, String.toList_append, show (String.ofList rest).toList = rest from String.toList_ofList]

theorem exists_append_of_endsWith {n : String} (hends : EndsWith n ".xz") :
    ∃ base, n = base ++ ".xz" := by
  obtain ⟨base, hbase⟩ := hends
  refine ⟨String.ofList base, String.toList_inj.1 ?_⟩
  rw [← hbase, String.toList_append, show (String.ofList base).toList = base from String.toList_ofList]

theorem recalled?_dir_append_iff {n : String} {e : CpioEntry} :
    recalled? xz (".backup/" ++ n, e) = some (name, entry) ↔
      (n = name ++ ".xz" ∧ e.decompress xz = some entry) ∨
        (n = name ∧ e = entry ∧ Plain xz name entry) := by
  have hspecial : ∀ special : String, ".backup/" ++ n = ".backup/" ++ special ↔ n = special :=
    fun special => ⟨append_left_cancel, fun h => h ▸ rfl⟩
  have hiff : (".backup/" ++ n = ".backup/.rmlist" ∨ ".backup/" ++ n = ".backup/.magisk") ↔
      (n = ".rmlist" ∨ n = ".magisk") := or_congr (hspecial ".rmlist") (hspecial ".magisk")
  rw [recalled?]
  simp only [hiff]
  by_cases hown : n = ".rmlist" ∨ n = ".magisk"
  · rw [if_pos hown]
    constructor
    · intro h
      cases h
    · rintro (⟨rfl, -⟩ | ⟨rfl, rfl, hplain⟩)
      · rcases hown with h | h
        · exact absurd h (ne_of_endsWith_xz (by decide))
        · exact absurd h (ne_of_endsWith_xz (by decide))
      · rcases hown with h | h
        · exact absurd h hplain.ne_rmlist
        · exact absurd h hplain.ne_magisk
  · rw [if_neg hown, Option.some.injEq]
    rw [not_or] at hown
    by_cases hplain : EndsWith n ".xz" → e.decompress xz = none
    · rw [restoredAs_plain hplain, Prod.mk.injEq]
      constructor
      · rintro ⟨rfl, rfl⟩
        exact .inr ⟨rfl, rfl, hown.1, hown.2, hplain⟩
      · rintro (⟨rfl, hunpacked⟩ | ⟨rfl, rfl, -⟩)
        · rw [hplain (endsWith_append _ _)] at hunpacked
          cases hunpacked
        · exact ⟨rfl, rfl⟩
    · rw [Classical.not_imp] at hplain
      obtain ⟨hends, hsome⟩ := hplain
      obtain ⟨base, rfl⟩ := exists_append_of_endsWith hends
      obtain ⟨unpacked, hunpacked⟩ := Option.ne_none_iff_exists'.1 hsome
      rw [← String.append_assoc, restoredAs_packed base hunpacked, Prod.mk.injEq]
      constructor
      · rintro ⟨rfl, rfl⟩
        exact .inl ⟨rfl, hunpacked⟩
      · rintro (⟨hbase, hentry⟩ | ⟨rfl, rfl, hplain⟩)
        · rw [hunpacked] at hentry
          exact ⟨append_right_cancel hbase, Option.some.inj hentry⟩
        · exact absurd (hplain.not_packed hends) hsome

theorem mem_recalled_iff :
    (name, entry) ∈ (extracted (backupEntries xz true o self)).filterMap (recalled? xz) ↔
      (∃ packed, Changed (rm o ".backup" true) (rm self ".backup" true) (name ++ ".xz") packed ∧
          packed.decompress xz = some entry) ∨
        (Changed (rm o ".backup" true) (rm self ".backup" true) name entry ∧
          Plain xz name entry) := by
  rw [List.mem_filterMap]
  constructor
  · rintro ⟨⟨k, e⟩, hmem, hrecalled⟩
    obtain ⟨hget, hstart⟩ := mem_extracted.1 hmem
    obtain ⟨n, rfl⟩ := exists_dir_append hstart
    rcases recalled?_dir_append_iff.1 hrecalled with ⟨rfl, hunpacked⟩ | ⟨rfl, rfl, hplain⟩
    · exact .inl ⟨e, (getElem?_backupEntries_dir xz (ne_of_endsWith_xz (by decide))).1 hget, hunpacked⟩
    · exact .inr ⟨(getElem?_backupEntries_dir xz hplain.ne_rmlist).1 hget, hplain⟩
  · rintro (⟨packed, hchanged, hunpacked⟩ | ⟨hchanged, hplain⟩)
    · have hget := (getElem?_backupEntries_dir xz (ne_of_endsWith_xz (by decide))).2 hchanged
      exact ⟨_, mem_extracted.2 ⟨hget, startsWith_append _ _⟩,
        recalled?_dir_append_iff.2 (.inl ⟨rfl, hunpacked⟩)⟩
    · have hget := (getElem?_backupEntries_dir xz hplain.ne_rmlist).2 hchanged
      exact ⟨_, mem_extracted.2 ⟨hget, startsWith_append _ _⟩,
        recalled?_dir_append_iff.2 (.inr ⟨rfl, rfl, hplain⟩)⟩

theorem compare_dir_lt (name : String) :
    compare (".backup/" ++ name) (".backup/" ++ (name ++ ".xz")) = .lt := by
  rw [compare_lt_iff_lt, ← String.append_assoc]
  exact lt_append _ (by decide)

/-- **The later entry wins.** An entry that comes back unpacked is read after the one that has the name
without `.xz`, so it is the one that stays. -/
theorem stored_recallAll_of_packed {packed : CpioEntry}
    (hchanged : Changed (rm o ".backup" true) (rm self ".backup" true) (name ++ ".xz") packed)
    (hunpacked : packed.decompress xz = some entry) :
    (recallAll xz (backupEntries xz true o self)).stored[name]? = some entry := by
  have hget := (getElem?_backupEntries_dir xz (ne_of_endsWith_xz (by decide))).2 hchanged
  have hmem := mem_extracted.2 ⟨hget, startsWith_append _ _⟩
  obtain ⟨before, after, hsplit⟩ := List.append_of_mem hmem
  have hsorted : (extracted (backupEntries xz true o self)).Pairwise
      fun a b => compare a.1 b.1 = .lt := Std.ExtTreeMap.ordered_keys_toList.filter _
  rw [hsplit, List.pairwise_append, List.pairwise_cons] at hsorted
  have hrecalled : recalled? xz (".backup/" ++ (name ++ ".xz"), packed) = some (name, entry) :=
    recalled?_dir_append_iff.2 (.inl ⟨rfl, hunpacked⟩)
  rw [recallAll, stored_foldl_recall, hsplit, List.filterMap_append, List.filterMap_cons_some hrecalled]
  apply getElem?_insertMany_of_last
  rintro ⟨name', entry'⟩ hafter rfl
  obtain ⟨⟨k, e⟩, hke, hrecalled'⟩ := List.mem_filterMap.1 hafter
  have hstart : StartsWith k ".backup/" :=
    (mem_extracted.1 (hsplit ▸ List.mem_append_right _ (List.mem_cons_of_mem _ hke))).2
  have hlt := hsorted.2.1.1 _ hke
  obtain ⟨n, rfl⟩ := exists_dir_append hstart
  rcases recalled?_dir_append_iff.1 hrecalled' with ⟨rfl, -⟩ | ⟨rfl, -, -⟩
  · exact ne_of_compare_lt hlt rfl
  · exact ne_of_compare_lt (Std.TransCmp.lt_trans hlt (compare_dir_lt n)) rfl

theorem getElem?_of_restoreEntries {entries : CpioEntries}
    (hstored : (recallAll xz entries).stored[name]? = none)
    (hget : (restoreEntries xz entries)[name]? = some entry) : entries[name]? = some entry := by
  by_cases hne : (recallAll xz entries).rmList = "" ∧ (recallAll xz entries).stored.isEmpty
  · have hclear : restoreEntries xz entries = ∅ := if_pos hne
    rw [hclear] at hget
    simp at hget
  · by_cases hremoved : (recallAll xz entries).Listed name ∨ name = ".backup" ∨
        StartsWith name ".backup/"
    · rw [getElem?_restoreEntries_of_removed hne hstored hremoved] at hget
      cases hget
    · rw [not_or, not_or] at hremoved
      rwa [getElem?_restoreEntries_of_kept hne hstored hremoved.1 hremoved.2.1 hremoved.2.2] at hget

/-- After `restore` the entry's data is under its name again. -/
def PutBack (xz : Xz) (o self : CpioEntries) (name : String) (entry : CpioEntry) : Prop :=
  ∃ e, (restoreEntries xz (backupEntries xz true o self))[name]? = some e ∧ e.data = entry.data

/-- The stored names tell what was stored under this one: no other entry comes back under it, and it
is taken for what it is; or the other entry happens to have the same data. -/
def Told (xz : Xz) (o self : CpioEntries) (name : String) (entry : CpioEntry) : Prop :=
  (∃ packed unpacked, Changed o self (name ++ ".xz") packed ∧
      packed.decompress xz = some unpacked ∧ unpacked.data = entry.data) ∨
    (∀ packed, Changed o self (name ++ ".xz") packed → packed.decompress xz = none) ∧
      Plain xz name entry

theorem stored_of_restored
    (hchanged : Changed (rm o ".backup" true) (rm self ".backup" true) name entry)
    (hback : PutBack xz o self name entry) :
    ∃ e, (recallAll xz (backupEntries xz true o self)).stored[name]? = some e ∧
      e.data = entry.data := by
  obtain ⟨e, hget, hdata⟩ := hback
  cases hstored : (recallAll xz (backupEntries xz true o self)).stored[name]? with
  | none =>
      -- The entry would be the one of the modified archive, which has other data.
      obtain ⟨hstart, hdir⟩ := not_backup_of_mem_rm hchanged.1
      have hself := getElem?_of_restoreEntries hstored hget
      rw [getElem?_backupEntries_of_not_startsWith hstart hdir] at hself
      exact absurd hdata (hchanged.2 e hself)
  | some e' =>
      have hne : ¬ ((recallAll xz (backupEntries xz true o self)).rmList = "" ∧
          (recallAll xz (backupEntries xz true o self)).stored.isEmpty) := by
        rintro ⟨-, hempty⟩
        rw [Std.ExtTreeMap.isEmpty_iff.1 hempty] at hstored
        simp at hstored
      rw [getElem?_restoreEntries_of_stored hne hstored] at hget
      cases hget
      exact ⟨e, rfl, hdata⟩

theorem stored_recallAll_iff
    (hpacked : ∀ packed, Changed (rm o ".backup" true) (rm self ".backup" true) (name ++ ".xz") packed →
      packed.decompress xz = none) :
    (recallAll xz (backupEntries xz true o self)).stored[name]? = some entry ↔
      Changed (rm o ".backup" true) (rm self ".backup" true) name entry ∧ Plain xz name entry := by
  have hmem : ∀ {e : CpioEntry}, (name, e) ∈
      (extracted (backupEntries xz true o self)).filterMap (recalled? xz) ↔
        Changed (rm o ".backup" true) (rm self ".backup" true) name e ∧ Plain xz name e := by
    intro e
    rw [mem_recalled_iff]
    constructor
    · rintro (⟨packed, hother, hunpacked⟩ | hsame)
      · rw [hpacked packed hother] at hunpacked
        cases hunpacked
      · exact hsame
    · exact .inr
  have hof : ∀ {e : CpioEntry}, (recallAll xz (backupEntries xz true o self)).stored[name]? = some e →
      Changed (rm o ".backup" true) (rm self ".backup" true) name e ∧ Plain xz name e := by
    intro e he
    rw [recallAll, stored_foldl_recall] at he
    rcases mem_of_getElem?_insertMany he with h | hempty
    · exact hmem.1 h
    · simp at hempty
  constructor
  · exact hof
  · intro hsame
    have hsome : (recallAll xz (backupEntries xz true o self)).stored[name]?.isSome := by
      rw [recallAll, stored_foldl_recall]
      exact isSome_getElem?_insertMany (.inr ⟨entry, hmem.2 hsame⟩)
    obtain ⟨e, he⟩ := Option.isSome_iff_exists.1 hsome
    rw [he]
    exact (hof he).1.1.symm.trans hsame.1.1

theorem putBack_of_stored {e : CpioEntry}
    (hstored : (recallAll xz (backupEntries xz true o self)).stored[name]? = some e)
    (hdata : e.data = entry.data) : PutBack xz o self name entry := by
  refine ⟨e, getElem?_restoreEntries_of_stored ?_ hstored, hdata⟩
  rintro ⟨-, hempty⟩
  rw [Std.ExtTreeMap.isEmpty_iff.1 hempty] at hstored
  simp at hstored

/-- **Names that tell.** An entry that was stored as it is comes back exactly if the stored names tell
what it was. -/
theorem putBack_iff (hchanged : Changed (rm o ".backup" true) (rm self ".backup" true) name entry) :
    PutBack xz o self name entry ↔
      Told xz (rm o ".backup" true) (rm self ".backup" true) name entry := by
  constructor
  · intro hback
    obtain ⟨e, hstored, hdata⟩ := stored_of_restored hchanged hback
    by_cases hpacked : ∀ packed, Changed (rm o ".backup" true) (rm self ".backup" true)
        (name ++ ".xz") packed → packed.decompress xz = none
    · right
      obtain ⟨hsame, hplain⟩ := (stored_recallAll_iff hpacked).1 hstored
      obtain rfl : entry = e := Option.some.inj (hchanged.1.symm.trans hsame.1)
      exact ⟨hpacked, hplain⟩
    · left
      push Not at hpacked
      obtain ⟨packed, hother, hsome⟩ := hpacked
      obtain ⟨unpacked, hunpacked⟩ := Option.ne_none_iff_exists'.1 hsome
      rw [stored_recallAll_of_packed hother hunpacked] at hstored
      cases hstored
      exact ⟨packed, e, hother, hunpacked, hdata⟩
  · rintro (⟨packed, unpacked, hother, hunpacked, hdata⟩ | ⟨hpacked, hplain⟩)
    · exact putBack_of_stored (stored_recallAll_of_packed hother hunpacked) hdata
    · exact putBack_of_stored ((stored_recallAll_iff hpacked).2 ⟨hchanged, hplain⟩) rfl

end Stored

def lone (name : String) : CpioEntries :=
  (∅ : CpioEntries).insert name ⟨CpioEntry.sIfreg, 0, 0, 0, 0, Boot.packedPair⟩

theorem changed_lone {name : String} (hdir : ".backup" ≠ name) (hstart : ¬ StartsWith name ".backup/") :
    Changed (rm (lone name) ".backup" true) (rm ∅ ".backup" true) name
      ⟨CpioEntry.sIfreg, 0, 0, 0, 0, Boot.packedPair⟩ := by
  have hnorm : normPath ".backup" = ".backup" := by decide
  have hkept : ¬ (normPath ".backup" = name ∨
      true = true ∧ StartsWith name (normPath ".backup" ++ "/")) := by
    rw [hnorm]
    rintro (h | ⟨-, h⟩)
    · exact hdir h
    · exact hstart h
  constructor
  · rw [getElem?_rm, if_neg hkept, lone, getElem?_insert_self]
  · intro r hr
    rw [getElem?_rm, if_neg hkept] at hr
    simp at hr

theorem not_changed_lone {name other : String} (hne : name ≠ other) {self : CpioEntries}
    {entry : CpioEntry} : ¬ Changed (rm (lone name) ".backup" true) self other entry := by
  rintro ⟨hget, -⟩
  have hmem := mem_of_mem_rm (Std.ExtTreeMap.mem_iff_isSome_getElem?.2 (by rw [hget]; rfl))
  rw [lone, mem_insert] at hmem
  rcases hmem with hcmp | hmem
  · exact hne (Std.LawfulEqOrd.eq_of_compare hcmp)
  · exact not_mem_empty hmem

theorem putBack_lone :
    PutBack Xz.sample (lone "init") ∅ "init" ⟨CpioEntry.sIfreg, 0, 0, 0, 0, Boot.packedPair⟩ := by
  apply (putBack_iff (changed_lone (by decide) (by decide))).2
  refine .inr ⟨?_, by decide, by decide, fun hends => absurd hends (by decide)⟩
  intro packed hchanged
  exact absurd hchanged (not_changed_lone (by decide))

theorem not_putBack_packed :
    ¬ PutBack Xz.sample (lone "init.xz") ∅ "init.xz" ⟨CpioEntry.sIfreg, 0, 0, 0, 0, Boot.packedPair⟩ := by
  intro hback
  have hchanged : Changed (rm (lone "init.xz") ".backup" true) (rm ∅ ".backup" true) "init.xz"
      ⟨CpioEntry.sIfreg, 0, 0, 0, 0, Boot.packedPair⟩ := changed_lone (by decide) (by decide)
  obtain ⟨e, hstored, -⟩ := stored_of_restored hchanged hback
  obtain ⟨hsame, hplain⟩ := (stored_recallAll_iff fun packed hother =>
    absurd hother (not_changed_lone (by decide))).1 hstored
  obtain rfl := Option.some.inj (hchanged.1.symm.trans hsame.1)
  exact absurd (hplain.not_packed (by decide)) (by decide)

end MagiskNative.Cpio
