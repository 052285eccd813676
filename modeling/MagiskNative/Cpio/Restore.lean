import MagiskNative.Cpio.Backup

/-!
# Restoring what was backed up

`restore` after `backup` leads back to the names and the data of the original archive. An entry that
is still there with the data it had is not in the backup: it stays as the modified archive has it,
with its mode and its owner.
-/

namespace MagiskNative.Cpio

open Text OrderedMap Std.ExtTreeMap

variable {entries : CpioEntries} {entry e : CpioEntry} {k : String}

/-- The names `backup` and `restore` do not use for themselves, in the form `norm_path` gives. -/
structure Ordinary (name : String) : Prop where
  not_backup : ¬ StartsWith name ".backup"
  not_xz : ¬ EndsWith name ".xz"
  ne_rmlist : name ≠ ".rmlist"
  ne_magisk : name ≠ ".magisk"
  normal : normPath name = name
  ne_empty : name ≠ ""

def Changed (o self : CpioEntries) (name : String) (entry : CpioEntry) : Prop :=
  o[name]? = some entry ∧ ∀ r, self[name]? = some r → r.data ≠ entry.data

def Added (o self : CpioEntries) (name : String) : Prop :=
  o[name]? = none ∧ self[name]?.isSome

section Names

variable {xz : Xz} {skipCompress : Bool} {name : String} {entry : CpioEntry}

theorem not_startsWith_dir (hname : Ordinary name) : ¬ StartsWith name ".backup/" := by
  intro hstart
  apply hname.not_backup
  exact (by decide : ".backup".toList <+: ".backup/".toList).trans hstart

theorem startsWith_append (a b : String) : StartsWith (a ++ b) a := by
  rw [StartsWith, String.toList_append]
  exact List.prefix_append _ _

theorem storedAs_fst_eq (xz : Xz) (skipCompress : Bool) (name : String) (entry : CpioEntry) :
    (storedAs xz skipCompress name entry).1 = ".backup/" ++ (name ++ ".xz") ∨
      (storedAs xz skipCompress name entry).1 = ".backup/" ++ name := by
  rw [storedAs]
  split
  · exact Or.inl (String.append_assoc ..)
  · exact Or.inr rfl

theorem startsWith_storedAs (xz : Xz) (skipCompress : Bool) (name : String) (entry : CpioEntry) :
    StartsWith (storedAs xz skipCompress name entry).1 ".backup/" := by
  rcases storedAs_fst_eq xz skipCompress name entry with h | h
  · rw [h]
    exact startsWith_append _ _
  · rw [h]
    exact startsWith_append _ _

theorem append_left_cancel {a b c : String} (h : a ++ b = a ++ c) : b = c := by
  have hlist := congrArg String.toList h
  rw [String.toList_append, String.toList_append] at hlist
  exact String.toList_inj.1 (List.append_cancel_left hlist)

theorem append_right_cancel {a b c : String} (h : b ++ a = c ++ a) : b = c := by
  have hlist := congrArg String.toList h
  rw [String.toList_append, String.toList_append] at hlist
  exact String.toList_inj.1 (List.append_cancel_right hlist)

theorem endsWith_append (a b : String) : EndsWith (a ++ b) b := by
  rw [EndsWith, String.toList_append]
  exact List.suffix_append _ _

theorem storedAs_fst_ne {special : String} (hne : name ≠ special) (hxz : ¬ EndsWith special ".xz") :
    (storedAs xz skipCompress name entry).1 ≠ ".backup/" ++ special := by
  intro heq
  rcases storedAs_fst_eq xz skipCompress name entry with h | h
  · apply hxz
    rw [← append_left_cancel (h.symm.trans heq)]
    exact endsWith_append _ _
  · exact hne (append_left_cancel (h.symm.trans heq))

theorem storedAs_fst_inj {name' : String} {entry' : CpioEntry} (hname : Ordinary name)
    (hname' : Ordinary name')
    (heq : (storedAs xz skipCompress name entry).1 = (storedAs xz skipCompress name' entry').1) :
    name = name' := by
  rcases storedAs_fst_eq xz skipCompress name entry with h | h <;>
    rcases storedAs_fst_eq xz skipCompress name' entry' with h' | h' <;>
    rw [h, h'] at heq <;>
    have heq := append_left_cancel heq
  · exact append_right_cancel heq
  · exact absurd (heq ▸ endsWith_append name ".xz") hname'.not_xz
  · exact absurd (heq ▸ endsWith_append name' ".xz") hname.not_xz
  · exact heq

theorem endsWith_stored_iff (name : String) :
    EndsWith (".backup/" ++ name) ".xz" ↔ EndsWith name ".xz" := by
  have hslash : '/' :: name.toList <:+ (".backup/" ++ name).toList := by
    rw [String.toList_append]
    exact ⟨".backup".toList, by simp⟩
  constructor
  · intro hends
    -- The `/` in front of the name is not in `.xz`, so the suffix lies inside the name.
    rcases List.suffix_or_suffix_of_suffix hends hslash with h | h
    · rcases List.suffix_cons_iff.1 h with h | h
      · exact absurd (List.cons.inj h).1 (by decide)
      · exact h
    · exact absurd (h.mem List.mem_cons_self) (by decide)
  · intro hends
    exact (hends.trans (List.suffix_cons _ _)).trans hslash

theorem restoredAs_packed (name : String) {unpacked : CpioEntry}
    (hunpacked : entry.decompress xz = some unpacked) :
    restoredAs xz (".backup/" ++ name ++ ".xz") entry = (name, unpacked) := by
  rw [restoredAs, if_pos (endsWith_append _ _), hunpacked]
  have hslice := slice_append ".backup/" name ".xz"
  have hlength : (".backup/" ++ name ++ ".xz").toList.length - 3
      = ".backup/".toList.length + name.toList.length := by
    rw [String.toList_append, String.toList_append, List.length_append, List.length_append]
    rfl
  simp only [hlength]
  exact Prod.ext hslice rfl

theorem restoredAs_plain (hplain : EndsWith name ".xz" → entry.decompress xz = none) :
    restoredAs xz (".backup/" ++ name) entry = (name, entry) := by
  have hnone : (if EndsWith (".backup/" ++ name) ".xz" then entry.decompress xz else none) = none := by
    split
    · rename_i hends
      exact hplain ((endsWith_stored_iff name).1 hends)
    · rfl
  rw [restoredAs, hnone]
  have hslice := slice_append ".backup/" name ""
  have hlength : (".backup/" ++ name).toList.length
      = ".backup/".toList.length + name.toList.length := by
    rw [String.toList_append, List.length_append]
  rw [String.append_empty] at hslice
  simp only [hlength]
  exact Prod.ext hslice rfl

theorem restoredAs_storedAs (hxz : xz.RoundTrips) (hname : Ordinary name) (skipCompress : Bool)
    (entry : CpioEntry) :
    restoredAs xz (storedAs xz skipCompress name entry).1 (storedAs xz skipCompress name entry).2
      = (name, entry) := by
  rw [storedAs]
  split
  · rename_i packed hpacked
    have hcompress : entry.compress xz = some packed := by
      cases skipCompress with
      | true => cases hpacked
      | false => exact hpacked
    exact restoredAs_packed name (CpioEntry.decompress_of_compress hxz hcompress)
  · exact restoredAs_plain fun hends => absurd hends hname.not_xz

end Names

section Backup

variable {xz : Xz} {skipCompress : Bool} {o self : CpioEntries} {name : String}

theorem getElem?_eq_none_of_not_ordinary
    (hentries : ∀ name ∈ entries, Ordinary name) (hname : ¬ Ordinary name) :
    entries[name]? = none :=
  getElem?_eq_none fun hmem => hname (hentries name hmem)

theorem rm_backup_of_ordinary
    (hentries : ∀ name ∈ entries, Ordinary name) : rm entries ".backup" true = entries := by
  apply ext_getElem?
  intro name
  have hnorm : normPath ".backup" = ".backup" := by decide
  rw [getElem?_rm, hnorm]
  split
  · rename_i hname
    symm
    apply getElem?_eq_none_of_not_ordinary hentries
    intro hordinary
    rcases hname with rfl | ⟨-, hstart⟩
    · exact hordinary.not_backup (List.prefix_refl _)
    · exact not_startsWith_dir hordinary hstart
  · rfl

theorem not_backup_of_mem_rm {name : String}
    (hentry : (rm entries ".backup" true)[name]? = some entry) :
    ¬ StartsWith name ".backup/" ∧ name ≠ ".backup" := by
  have hnorm : normPath ".backup" = ".backup" := by decide
  rw [getElem?_rm, hnorm] at hentry
  split at hentry
  · cases hentry
  · rename_i hname
    exact ⟨fun hstart => hname (.inr ⟨rfl, hstart⟩), fun hdir => hname (.inl hdir.symm)⟩

def gathered (xz : Xz) (skipCompress : Bool) (o self : CpioEntries) : Backups :=
  ((fullJoin o.toList self.toList).map action).foldl (Backups.perform xz skipCompress)
    ⟨(∅ : CpioEntries).insert ".backup" backupDir, ""⟩

theorem changed_of_stored_gathered (hget : (gathered xz skipCompress o self).stored[k]? = some e) :
    k = ".backup" ∨
      ∃ name entry, Changed o self name entry ∧ storedAs xz skipCompress name entry = (k, e) := by
  rw [gathered, stored_foldl_perform] at hget
  rcases mem_of_getElem?_insertMany hget with hmem | hdir
  · right
    obtain ⟨a, ha, hstored⟩ := List.mem_filterMap.1 hmem
    cases a with
    | backup name entry => exact ⟨name, entry, backup_mem_actions.1 ha, Option.some.inj hstored⟩
    | record name => cases hstored
    | noop => cases hstored
  · left
    by_contra hne
    rw [getElem?_insert, if_neg] at hdir
    · simp at hdir
    · intro hcmp
      exact hne (Std.LawfulEqOrd.eq_of_compare hcmp).symm

theorem stored_gathered_of_changed (xz : Xz) (skipCompress : Bool)
    (hchanged : Changed o self name entry) :
    (gathered xz skipCompress o self).stored[(storedAs xz skipCompress name entry).1]?.isSome := by
  rw [gathered, stored_foldl_perform]
  apply isSome_getElem?_insertMany
  right
  refine ⟨(storedAs xz skipCompress name entry).2, List.mem_filterMap.2 ?_⟩
  exact ⟨.backup name entry, backup_mem_actions.2 hchanged, rfl⟩

def addedNames (o self : CpioEntries) : List String :=
  ((fullJoin o.toList self.toList).map action).filterMap Action.recorded?

theorem mem_addedNames : name ∈ addedNames o self ↔ Added o self name := by
  rw [addedNames, List.mem_filterMap]
  constructor
  · rintro ⟨a, ha, hrecorded⟩
    cases a with
    | backup n entry => cases hrecorded
    | record n =>
        cases hrecorded
        exact record_mem_actions.1 ha
    | noop => cases hrecorded
  · intro hadded
    exact ⟨.record name, record_mem_actions.2 hadded, rfl⟩

theorem rmList_gathered :
    (gathered xz skipCompress o self).rmList.toList
      = (addedNames o self).flatMap fun name => name.toList ++ ['\x00'] := by
  rw [gathered, rmList_foldl_perform]
  rfl

theorem getElem?_backupEntries_rm (k : String) :
    (backupEntries xz skipCompress o self)[k]?
      = if k = ".backup/.rmlist" ∧
          (gathered xz skipCompress (rm o ".backup" true) (rm self ".backup" true)).rmList ≠ "" then
          some (rmListEntry
            (gathered xz skipCompress (rm o ".backup" true) (rm self ".backup" true)).rmList)
        else ((gathered xz skipCompress (rm o ".backup" true) (rm self ".backup" true)).stored[k]?).or
          (rm self ".backup" true)[k]? := by
  have heq : backupEntries xz skipCompress o self
      = rm self ".backup" true ∪
        if (gathered xz skipCompress (rm o ".backup" true) (rm self ".backup" true)).rmList ≠ "" then
          (gathered xz skipCompress (rm o ".backup" true) (rm self ".backup" true)).stored.insert
            ".backup/.rmlist" (rmListEntry
              (gathered xz skipCompress (rm o ".backup" true) (rm self ".backup" true)).rmList)
        else (gathered xz skipCompress (rm o ".backup" true) (rm self ".backup" true)).stored := rfl
  rw [heq, getElem?_union]
  split
  · rename_i hlist
    by_cases hk : k = ".backup/.rmlist"
    · subst hk
      rw [getElem?_insert_self, if_pos ⟨rfl, hlist⟩, Option.some_or]
    · rw [if_neg fun h => hk h.1, getElem?_insert, if_neg]
      intro hcmp
      exact hk (Std.LawfulEqOrd.eq_of_compare hcmp).symm
  · rename_i hlist
    rw [if_neg fun h => hlist h.2]

theorem getElem?_backupEntries_of_not_startsWith (hk : ¬ StartsWith k ".backup/")
    (hdir : k ≠ ".backup") :
    (backupEntries xz skipCompress o self)[k]? = (rm self ".backup" true)[k]? := by
  rw [getElem?_backupEntries_rm, if_neg]
  · cases hstored : (gathered xz skipCompress (rm o ".backup" true)
        (rm self ".backup" true)).stored[k]? with
    | none => rfl
    | some e =>
        rcases changed_of_stored_gathered hstored with h | ⟨name, entry, -, h⟩
        · exact absurd h hdir
        · refine absurd ?_ hk
          have hstart := startsWith_storedAs xz skipCompress name entry
          rwa [h] at hstart
  · rintro ⟨rfl, -⟩
    exact hk (by decide)

variable (ho : ∀ name ∈ o, Ordinary name) (hself : ∀ name ∈ self, Ordinary name)

include ho hself

theorem getElem?_backupEntries (k : String) :
    (backupEntries xz skipCompress o self)[k]?
      = if k = ".backup/.rmlist" ∧ (gathered xz skipCompress o self).rmList ≠ "" then
          some (rmListEntry (gathered xz skipCompress o self).rmList)
        else ((gathered xz skipCompress o self).stored[k]?).or self[k]? := by
  rw [getElem?_backupEntries_rm, rm_backup_of_ordinary ho, rm_backup_of_ordinary hself]

end Backup

section Restore

variable {xz : Xz} {skipCompress : Bool} {o self : CpioEntries} {name : String}
  (hxz : xz.RoundTrips) (ho : ∀ name ∈ o, Ordinary name) (hself : ∀ name ∈ self, Ordinary name)

theorem flatMap_eq_of_pairwise {entries : List (String × CpioEntry)} {x : CpioEntry}
    {f : String × CpioEntry → List Char} (hpair : entries.Pairwise fun a b => a.1 ≠ b.1)
    (hmem : (k, x) ∈ entries) (hf : ∀ e, e.1 ≠ k → f e = []) : entries.flatMap f = f (k, x) := by
  induction entries with
  | nil => cases hmem
  | cons e entries ih =>
      rw [List.flatMap_cons]
      rcases List.mem_cons.1 hmem with rfl | hmem
      · have hrest : entries.flatMap f = [] := by
          rw [List.flatMap_eq_nil_iff]
          intro e he
          exact hf e (List.rel_of_pairwise_cons hpair he).symm
        rw [hrest, List.append_nil]
      · rw [hf e (List.rel_of_pairwise_cons hpair hmem), List.nil_append, ih hpair.of_cons hmem]

def extracted (entries : CpioEntries) : List (String × CpioEntry) :=
  entries.toList.filter fun e => StartsWith e.1 ".backup/"

theorem mem_extracted :
    (k, e) ∈ extracted entries ↔ entries[k]? = some e ∧ StartsWith k ".backup/" := by
  rw [extracted, List.mem_filter, mem_toList_iff_getElem?_eq_some, decide_eq_true_iff]

include ho in
theorem ordinary_of_changed (hchanged : Changed o self name entry) :
    Ordinary name :=
  ho name (Std.ExtTreeMap.mem_iff_isSome_getElem?.2 (by simp [hchanged.1]))

include hxz in
theorem recalled_storedAs (hname : Ordinary name) (entry : CpioEntry) :
    recalled? xz (storedAs xz skipCompress name entry) = some (name, entry) := by
  rw [recalled?, if_neg, restoredAs_storedAs hxz hname]
  rintro (h | h)
  · exact storedAs_fst_ne hname.ne_rmlist (by decide) h
  · exact storedAs_fst_ne hname.ne_magisk (by decide) h

include hxz ho hself

theorem mem_recalled :
    (name, entry) ∈ (extracted (backupEntries xz skipCompress o self)).filterMap (recalled? xz) →
      Changed o self name entry := by
  intro hmem
  obtain ⟨⟨k, e⟩, hextracted, hrecalled⟩ := List.mem_filterMap.1 hmem
  obtain ⟨hget, hstart⟩ := mem_extracted.1 hextracted
  rw [getElem?_backupEntries ho hself] at hget
  split at hget
  · rename_i hlist
    rw [recalled?, if_pos (Or.inl hlist.1)] at hrecalled
    cases hrecalled
  · have hnone : self[k]? = none :=
      getElem?_eq_none_of_not_ordinary hself fun hk => not_startsWith_dir hk hstart
    rw [hnone, Option.or_none] at hget
    rcases changed_of_stored_gathered hget with rfl | ⟨name', entry', hchanged, hstored⟩
    · exact absurd hstart (by decide)
    · rw [← hstored, recalled_storedAs hxz (ordinary_of_changed ho hchanged)] at hrecalled
      cases hrecalled
      exact hchanged

theorem recalled_of_changed (hchanged : Changed o self name entry) :
    ∃ entry', (name, entry') ∈
      (extracted (backupEntries xz skipCompress o self)).filterMap (recalled? xz) := by
  have hname := ordinary_of_changed ho hchanged
  obtain ⟨e, he⟩ := Option.isSome_iff_exists.1
    (stored_gathered_of_changed xz skipCompress hchanged)
  have hstart := startsWith_storedAs xz skipCompress name entry
  rcases changed_of_stored_gathered he with hdir | ⟨name', entry', hchanged', hstored⟩
  · rw [hdir] at hstart
    exact absurd hstart (by decide)
  · have hname' := ordinary_of_changed ho hchanged'
    obtain rfl : name = name' :=
      storedAs_fst_inj hname hname' (congrArg Prod.fst hstored).symm
    have hget : (backupEntries xz skipCompress o self)[(storedAs xz skipCompress name entry).1]?
        = some e := by
      rw [getElem?_backupEntries ho hself, if_neg, he, Option.some_or]
      rintro ⟨h, -⟩
      exact storedAs_fst_ne hname.ne_rmlist (by decide) h
    refine ⟨entry', List.mem_filterMap.2 ⟨_, mem_extracted.2 ⟨hget, hstart⟩, ?_⟩⟩
    rw [← hstored]
    exact recalled_storedAs hxz hname entry'

theorem getElem?_recalled :
    ((∅ : CpioEntries).insertMany
        ((extracted (backupEntries xz skipCompress o self)).filterMap (recalled? xz)))[name]?
      = some entry ↔ Changed o self name entry := by
  constructor
  · intro hget
    rcases mem_of_getElem?_insertMany hget with hmem | hempty
    · exact mem_recalled hxz ho hself hmem
    · simp at hempty
  · intro hchanged
    have hsome : ((∅ : CpioEntries).insertMany
        ((extracted (backupEntries xz skipCompress o self)).filterMap (recalled? xz)))[name]?.isSome :=
      isSome_getElem?_insertMany (Or.inr (recalled_of_changed hxz ho hself hchanged))
    obtain ⟨entry', hentry'⟩ := Option.isSome_iff_exists.1 hsome
    rw [hentry']
    rcases mem_of_getElem?_insertMany hentry' with hmem | hempty
    · have hchanged' := mem_recalled hxz ho hself hmem
      exact hchanged'.1.symm.trans hchanged.1
    · simp at hempty

omit hxz in
theorem flatMap_recalledText :
    (extracted (backupEntries xz skipCompress o self)).flatMap recalledText
      = (gathered xz skipCompress o self).rmList.toList := by
  have htext : ∀ e : String × CpioEntry, e.1 ≠ ".backup/.rmlist" → recalledText e = [] :=
    fun e he => if_neg he
  by_cases hlist : (gathered xz skipCompress o self).rmList = ""
  · rw [hlist, List.flatMap_eq_nil_iff.2]
    · rfl
    · rintro ⟨k, e⟩ hmem
      apply htext
      rintro rfl
      obtain ⟨hget, hstart⟩ := mem_extracted.1 hmem
      have hnone : self[".backup/.rmlist"]? = none :=
        getElem?_eq_none_of_not_ordinary hself fun hk => not_startsWith_dir hk hstart
      rw [getElem?_backupEntries ho hself, if_neg (fun h => h.2 hlist), hnone, Option.or_none] at hget
      rcases changed_of_stored_gathered hget with hdir | ⟨name, entry, hchanged, hstored⟩
      · exact absurd hdir (by decide)
      · exact storedAs_fst_ne (ordinary_of_changed ho hchanged).ne_rmlist (by decide)
          (congrArg Prod.fst hstored)
  · have hmem : (".backup/.rmlist", rmListEntry (gathered xz skipCompress o self).rmList)
        ∈ extracted (backupEntries xz skipCompress o self) := by
      rw [mem_extracted, getElem?_backupEntries ho hself, if_pos ⟨rfl, hlist⟩]
      exact ⟨rfl, by decide⟩
    have hpair : (extracted (backupEntries xz skipCompress o self)).Pairwise
        fun a b => a.1 ≠ b.1 := by
      apply List.Pairwise.filter
      apply Std.ExtTreeMap.ordered_keys_toList.imp
      intro a b hlt
      exact ne_of_compare_lt hlt
    rw [flatMap_eq_of_pairwise hpair hmem htext, recalledText, if_pos rfl, rmListEntry,
      ofUtf8?_utf8Bytes]
    rfl

end Restore

theorem splitOn_flatMap_nul {names : List String} (hnames : ∀ name ∈ names, NulFree name) :
    (names.flatMap fun name => name.toList ++ ['\x00']).splitOn '\x00'
      = names.map String.toList ++ [[]] := by
  rw [← splitOn_flatMap, List.flatMap_map]
  intro part hpart
  obtain ⟨name, hname, rfl⟩ := List.mem_map.1 hpart
  exact (hnames name hname).not_mem_toList

theorem mem_splitOn_flatMap_nul {names : List String} (hnames : ∀ name ∈ names, NulFree name)
    {path : String} (hpath : path ≠ "") :
    path ∈ ((names.flatMap fun name => name.toList ++ ['\x00']).splitOn '\x00').map String.ofList ↔
      path ∈ names := by
  rw [splitOn_flatMap_nul hnames, List.map_append, List.map_map]
  have hid : (String.ofList ∘ String.toList) = id := by
    funext name
    exact String.ofList_toList
  simp [hid, hpath]

section RoundTrip

variable {xz : Xz} {skipCompress : Bool} {o self : Cpio}
  (hxz : xz.RoundTrips) (ho : ∀ name ∈ o.entries, Ordinary name)
  (hself : ∀ name ∈ self.entries, Ordinary name)

def Differ (o self : CpioEntries) : Prop :=
  ∃ name : String, (o[name]?).map CpioEntry.data ≠ (self[name]?).map CpioEntry.data

/-- What is under a name of the original in the end, given what the modified archive has there. -/
def survivor (e : CpioEntry) : Option CpioEntry → CpioEntry
  | some r => if r.data = e.data then r else e
  | none => e

theorem survivor_data (e : CpioEntry) (r? : Option CpioEntry) : (survivor e r?).data = e.data := by
  cases r? with
  | none => rfl
  | some r =>
      rw [survivor]
      split
      · assumption
      · rfl

theorem survivor_eq {r? : Option CpioEntry}
    (hother : ∀ r, r? = some r → r.data ≠ e.data) : survivor e r? = e := by
  cases r? with
  | none => rfl
  | some r => exact if_neg (hother r rfl)

theorem changed_or_added {o self : CpioEntries} (hdiffer : Differ o self) :
    (∃ name entry, Changed o self name entry) ∨ ∃ name, Added o self name := by
  obtain ⟨name, hname⟩ := hdiffer
  cases ho : o[name]? with
  | none =>
      right
      refine ⟨name, ho, ?_⟩
      rw [ho] at hname
      cases hself : self[name]? with
      | none =>
          rw [hself] at hname
          exact absurd rfl hname
      | some r => rfl
  | some entry =>
      left
      refine ⟨name, entry, ho, ?_⟩
      intro r hr hdata
      rw [ho, hr] at hname
      exact hname (congrArg some hdata.symm)

theorem nulFree_of_added {name : String} (hadded : Added o.entries self.entries name) :
    NulFree name :=
  self.nulFree name (Std.ExtTreeMap.mem_iff_isSome_getElem?.2 hadded.2)

def recallAll (xz : Xz) (entries : CpioEntries) : Backups :=
  (extracted entries).foldl (Backups.recall xz) ⟨∅, ""⟩

def Backups.Listed (b : Backups) (name : String) : Prop :=
  ∃ path ∈ (b.rmList.toList.splitOn '\x00').map String.ofList, path ≠ "" ∧ normPath path = name

theorem restoreEntries_eq
    (hne : ¬ ((recallAll xz entries).rmList = "" ∧ (recallAll xz entries).stored.isEmpty)) :
    restoreEntries xz entries
      = (((recallAll xz entries).rmList.toList.splitOn '\x00').map String.ofList).foldl
          (fun self name => if name ≠ "" then rm self name false else self)
          (rm (entries.filter fun name _ => ¬ StartsWith name ".backup/") ".backup" false)
        ∪ (recallAll xz entries).stored :=
  if_neg hne

theorem getElem?_filter_backup (entries : CpioEntries) (name : String) :
    (entries.filter fun name _ => ¬ StartsWith name ".backup/")[name]?
      = if StartsWith name ".backup/" then none else entries[name]? := by
  rw [getElem?_filter']
  split
  · cases entries[name]? <;> simp_all
  · cases entries[name]? <;> simp_all

section

variable {entries : CpioEntries} {name : String}
  (hne : ¬ ((recallAll xz entries).rmList = "" ∧ (recallAll xz entries).stored.isEmpty))

include hne

theorem getElem?_restoreEntries_of_stored
    (hstored : (recallAll xz entries).stored[name]? = some entry) :
    (restoreEntries xz entries)[name]? = some entry := by
  rw [restoreEntries_eq hne, getElem?_union, hstored, Option.some_or]

theorem getElem?_restoreEntries_of_removed (hstored : (recallAll xz entries).stored[name]? = none)
    (hremoved : (recallAll xz entries).Listed name ∨ name = ".backup" ∨
      StartsWith name ".backup/") :
    (restoreEntries xz entries)[name]? = none := by
  have hnorm : normPath ".backup" = ".backup" := by decide
  rw [restoreEntries_eq hne, getElem?_union, hstored, Option.none_or,
    getElem?_rm_names, getElem?_rm, hnorm, getElem?_filter_backup]
  rcases hremoved with hlisted | rfl | hstart
  · exact if_pos hlisted
  · simp
  · simp [hstart]

theorem getElem?_restoreEntries_of_kept (hstored : (recallAll xz entries).stored[name]? = none)
    (hlisted : ¬ (recallAll xz entries).Listed name) (hdir : name ≠ ".backup")
    (hstart : ¬ StartsWith name ".backup/") :
    (restoreEntries xz entries)[name]? = entries[name]? := by
  have hnorm : normPath ".backup" = ".backup" := by decide
  rw [restoreEntries_eq hne, getElem?_union, hstored, Option.none_or,
    getElem?_rm_names]
  refine (if_neg hlisted).trans ?_
  rw [getElem?_rm, hnorm, getElem?_filter_backup]
  simp [hdir.symm, hstart]

end

section

variable {name : String}

include hxz ho hself in
theorem stored_recallAll (skipCompress : Bool) :
    (recallAll xz (backupEntries xz skipCompress o.entries self.entries)).stored[name]?
      = some entry ↔ Changed o.entries self.entries name entry := by
  rw [recallAll, stored_foldl_recall]
  exact getElem?_recalled hxz ho hself

include ho hself

theorem rmList_recallAll (xz : Xz) (skipCompress : Bool) :
    (recallAll xz (backupEntries xz skipCompress o.entries self.entries)).rmList.toList
      = (addedNames o.entries self.entries).flatMap fun name => name.toList ++ ['\x00'] := by
  rw [recallAll, rmList_foldl_recall, flatMap_recalledText ho hself, rmList_gathered]
  rfl

theorem listed_iff_added (xz : Xz) (skipCompress : Bool) :
    (recallAll xz (backupEntries xz skipCompress o.entries self.entries)).Listed name ↔
      Added o.entries self.entries name := by
  have hnul : ∀ n ∈ addedNames o.entries self.entries, NulFree n := fun n hn =>
    nulFree_of_added (mem_addedNames.1 hn)
  have hordinary : ∀ n ∈ addedNames o.entries self.entries, Ordinary n := fun n hn =>
    hself n (Std.ExtTreeMap.mem_iff_isSome_getElem?.2 (mem_addedNames.1 hn).2)
  rw [Backups.Listed, rmList_recallAll ho hself xz skipCompress, ← mem_addedNames]
  constructor
  · rintro ⟨path, hpath, hne, hnorm⟩
    have hmem := (mem_splitOn_flatMap_nul hnul hne).1 hpath
    rw [(hordinary path hmem).normal] at hnorm
    rwa [← hnorm]
  · intro hmem
    have hname := hordinary name hmem
    exact ⟨name, (mem_splitOn_flatMap_nul hnul hname.ne_empty).2 hmem, hname.ne_empty, hname.normal⟩

include hxz

theorem recallAll_nonempty (skipCompress : Bool) (hdiffer : Differ o.entries self.entries) :
    ¬ ((recallAll xz (backupEntries xz skipCompress o.entries self.entries)).rmList = "" ∧
      (recallAll xz (backupEntries xz skipCompress o.entries self.entries)).stored.isEmpty) := by
  rintro ⟨hnil, hempty⟩
  rcases changed_or_added hdiffer with ⟨name, entry, hchanged⟩ | ⟨name, hadded⟩
  · have hget := (stored_recallAll hxz ho hself skipCompress).2 hchanged
    rw [Std.ExtTreeMap.isEmpty_iff.1 hempty] at hget
    simp at hget
  · have hlist := rmList_recallAll ho hself xz skipCompress
    rw [hnil] at hlist
    have hname := List.flatMap_eq_nil_iff.1 hlist.symm name (mem_addedNames.2 hadded)
    simp at hname

theorem getElem?_restore_backup (skipCompress : Bool) (hdiffer : Differ o.entries self.entries) :
    (restoreEntries xz (backupEntries xz skipCompress o.entries self.entries))[name]?
      = o.entries[name]?.map fun e => survivor e self.entries[name]? := by
  have hne := recallAll_nonempty hxz ho hself skipCompress hdiffer
  have hlisted : (recallAll xz (backupEntries xz skipCompress o.entries self.entries)).Listed name ↔
      Added o.entries self.entries name := listed_iff_added ho hself xz skipCompress
  have hstored : ∀ entry, (recallAll xz (backupEntries xz skipCompress o.entries
      self.entries)).stored[name]? = some entry ↔ Changed o.entries self.entries name entry :=
    fun entry => stored_recallAll hxz ho hself skipCompress
  cases hget : o.entries[name]? with
  | none =>
      have hnone : (recallAll xz (backupEntries xz skipCompress o.entries
          self.entries)).stored[name]? = none := by
        rw [Option.eq_none_iff_forall_ne_some]
        intro entry hentry
        have hchanged := ((hstored entry).1 hentry).1
        rw [hget] at hchanged
        cases hchanged
      by_cases hremoved : (recallAll xz (backupEntries xz skipCompress o.entries
          self.entries)).Listed name ∨ name = ".backup" ∨ StartsWith name ".backup/"
      · exact getElem?_restoreEntries_of_removed hne hnone hremoved
      · rw [not_or, not_or] at hremoved
        obtain ⟨hkept, hdir, hstart⟩ := hremoved
        rw [getElem?_restoreEntries_of_kept hne hnone hkept hdir hstart,
          getElem?_backupEntries_of_not_startsWith hstart hdir, rm_backup_of_ordinary hself,
          Option.map_none]
        -- A name that only the modified archive has is on the list.
        by_contra hsome
        exact hkept (hlisted.2 ⟨hget, Option.isSome_iff_ne_none.2 hsome⟩)
  | some e =>
      by_cases hsame : ∃ r, self.entries[name]? = some r ∧ r.data = e.data
      · obtain ⟨r, hr, hdata⟩ := hsame
        have hordinary := hself name (Std.ExtTreeMap.mem_iff_isSome_getElem?.2 (by simp [hr]))
        have hnone : (recallAll xz (backupEntries xz skipCompress o.entries
            self.entries)).stored[name]? = none := by
          rw [Option.eq_none_iff_forall_ne_some]
          intro entry hentry
          obtain ⟨hentry, hother⟩ := (hstored entry).1 hentry
          rw [hget] at hentry
          cases hentry
          exact hother r hr hdata
        have hkept : ¬ Added o.entries self.entries name := by
          rintro ⟨hnone, -⟩
          rw [hget] at hnone
          cases hnone
        have hdir : name ≠ ".backup" := by
          rintro rfl
          exact hordinary.not_backup (List.prefix_refl _)
        rw [getElem?_restoreEntries_of_kept hne hnone (mt hlisted.1 hkept) hdir
          (not_startsWith_dir hordinary), getElem?_backupEntries_of_not_startsWith
          (not_startsWith_dir hordinary) hdir, rm_backup_of_ordinary hself, hr]
        exact congrArg some (if_pos hdata).symm
      · have hchanged : Changed o.entries self.entries name e := by
          refine ⟨hget, ?_⟩
          intro r hr hdata
          exact hsame ⟨r, hr, hdata⟩
        rw [getElem?_restoreEntries_of_stored hne ((hstored e).2 hchanged), Option.map_some,
          survivor_eq hchanged.2]

end

end RoundTrip

/-- **Restoring a backup.** Whatever the changes were, `restore` brings back the names and the data
of the original, and all of an entry that was gone or had other data. -/
theorem restore_backup {xz : Xz} (hxz : xz.RoundTrips) (skipCompress : Bool) {o self : Cpio}
    {origin : List UInt8} (horigin : loadFromData origin = .ok o)
    (ho : ∀ name ∈ o.entries, Ordinary name) (hself : ∀ name ∈ self.entries, Ordinary name)
    (hdiffer : Differ o.entries self.entries) :
    ∃ saved, backup xz self origin skipCompress = .ok saved ∧
      (∀ name, name ∈ (restore xz saved).entries ↔ name ∈ o.entries) ∧
      ∀ (name : String) e, o.entries[name]? = some e →
        ∃ e', (restore xz saved).entries[name]? = some e' ∧ e'.data = e.data ∧
          ((∀ r, self.entries[name]? = some r → r.data ≠ e.data) → e' = e) := by
  refine ⟨_, by rw [backup, horigin]; rfl, ?_, ?_⟩
  · intro name
    rw [mem_iff_isSome_getElem?, mem_iff_isSome_getElem?, restore,
      getElem?_restore_backup hxz ho hself skipCompress hdiffer, Option.isSome_map]
  · intro name e he
    refine ⟨survivor e self.entries[name]?, ?_, survivor_data e _, survivor_eq⟩
    rw [restore, getElem?_restore_backup hxz ho hself skipCompress hdiffer, he]
    rfl

def initArchive (mode : UInt32) (data : List UInt8) : Cpio where
  entries := (∅ : CpioEntries).insert "init" ⟨mode, 0, 0, 0, 0, data⟩
  nulFree := nulFree_insert (by simp) (by decide) _

theorem ordinary_initArchive (mode : UInt32) (data : List UInt8) :
    ∀ name ∈ (initArchive mode data).entries, Ordinary name := by
  intro name hmem
  have hname : name = "init" := by
    rcases Std.ExtTreeMap.mem_insert.1 hmem with h | h
    · exact (Std.LawfulEqOrd.eq_of_compare h).symm
    · simp at h
  subst hname
  exact ⟨by decide, by decide, by decide, by decide, by decide, by decide⟩

theorem loadFromData_initArchive :
    loadFromData (dump (initArchive 0o100755 [1, 2])) = .ok (initArchive 0o100755 [1, 2]) :=
  loadFromData_solo (by constructor <;> decide)

theorem restore_backup_init :
    ∃ saved, backup Xz.sample (initArchive 0o100700 [3]) (dump (initArchive 0o100755 [1, 2])) false
        = .ok saved ∧
      (∀ name, name ∈ (restore Xz.sample saved).entries ↔
        name ∈ (initArchive 0o100755 [1, 2]).entries) ∧
      ∀ (name : String) e, (initArchive 0o100755 [1, 2]).entries[name]? = some e →
        ∃ e', (restore Xz.sample saved).entries[name]? = some e' ∧ e'.data = e.data ∧
          ((∀ r, (initArchive 0o100700 [3]).entries[name]? = some r → r.data ≠ e.data) → e' = e) := by
  apply restore_backup Xz.sample_roundTrips false loadFromData_initArchive (ordinary_initArchive _ _)
    (ordinary_initArchive _ _)
  refine ⟨"init", ?_⟩
  simp [initArchive]

end MagiskNative.Cpio
