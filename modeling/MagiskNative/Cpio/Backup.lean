import MagiskNative.Lib.OrderedMap
import MagiskNative.Boot.Format
import MagiskNative.Cpio.RoundTrip

/-!
# Backing up and restoring a ramdisk

`backup` compares a modified archive with the original one and keeps what it takes to undo the changes
inside the modified archive: the original of each entry that is gone or has other data goes to `.backup/`,
the names that are new go to the list `.backup/.rmlist`. `restore` reads both back by name.
-/

namespace MagiskNative

open Text Std.ExtTreeMap

variable {entry : CpioEntry} {name : String}

structure Xz where
  encode : List UInt8 → Option (List UInt8)
  decode : List UInt8 → Option (List UInt8)

def Xz.RoundTrips (xz : Xz) : Prop :=
  ∀ data out, xz.encode data = some out → xz.decode out = some data

def Xz.sample : Xz where
  encode data := if data = [1, 2] then some Boot.packedPair else none
  decode stream := if stream = Boot.packedPair then some [1, 2] else none

theorem Xz.sample_roundTrips : Xz.sample.RoundTrips := by
  intro data out hout
  simp only [sample] at hout ⊢
  split at hout
  · rename_i hdata
    cases hout
    rw [if_pos rfl, hdata]
  · cases hout

namespace CpioEntry

def sIfmt : UInt32 := 0o170000
def sIfdir : UInt32 := 0o040000
def sIfreg : UInt32 := 0o100000

-- `none` is the source's `false`: the entry is left as it was.
def compress (xz : Xz) (entry : CpioEntry) : Option CpioEntry :=
  if entry.mode &&& sIfmt ≠ sIfreg then none
  else
    match xz.encode entry.data with
    | none => none
    | some data => some { entry with data }

def decompress (xz : Xz) (entry : CpioEntry) : Option CpioEntry :=
  if entry.mode &&& sIfmt ≠ sIfreg then none
  else
    match xz.decode entry.data with
    | none => none
    | some data => some { entry with data }

theorem decompress_of_compress {xz : Xz} (hxz : xz.RoundTrips) {packed : CpioEntry}
    (hpacked : entry.compress xz = some packed) : packed.decompress xz = some entry := by
  rw [compress] at hpacked
  split at hpacked
  · cases hpacked
  · rename_i hmode
    split at hpacked
    · cases hpacked
    · rename_i data hdata
      cases hpacked
      simp only [decompress, if_neg hmode, hxz _ _ hdata]

end CpioEntry

namespace Cpio

open OrderedMap

def normPath (path : String) : String :=
  String.ofList (List.intercalate ['/'] ((path.toList.splitOn '/').filter (· ≠ [])))

def rm (entries : CpioEntries) (path : String) (recursive : Bool) : CpioEntries :=
  let path := normPath path
  let entries := entries.erase path
  if recursive then entries.filter fun name _ => ¬ StartsWith name (path ++ "/")
  else entries

/-- What both commands gather: entries under their new names and the list of names to remove. -/
structure Backups where
  stored : CpioEntries
  rmList : String

inductive Action where
  | backup (name : String) (entry : CpioEntry)
  | record (name : String)
  | noop

-- One round of the loop of `backup`, given what the two iterators have for the smaller name.
def action : String × Option CpioEntry × Option CpioEntry → Action
  | (name, some le, some re) => if re.data ≠ le.data then .backup name le else .noop
  | (name, some le, none) => .backup name le
  | (name, none, some _) => .record name
  | (_, none, none) => .noop

variable (xz : Xz) (skipCompress : Bool)

def storedAs (name : String) (entry : CpioEntry) : String × CpioEntry :=
  match if skipCompress then none else entry.compress xz with
  | some packed => (".backup/" ++ name ++ ".xz", packed)
  | none => (".backup/" ++ name, entry)

def Backups.perform (b : Backups) : Action → Backups
  | .backup name entry =>
      let (backup, entry) := storedAs xz skipCompress name entry
      { b with stored := b.stored.insert backup entry }
  | .record name => { b with rmList := b.rmList ++ (name ++ "\x00") }
  | .noop => b

def backupDir : CpioEntry := ⟨CpioEntry.sIfdir, 0, 0, 0, 0, []⟩

def rmListEntry (rmList : String) : CpioEntry := ⟨CpioEntry.sIfreg, 0, 0, 0, 0, utf8Bytes rmList⟩

def backupEntries (o self : CpioEntries) : CpioEntries :=
  let o := rm o ".backup" true
  let self := rm self ".backup" true
  let actions := (fullJoin o.toList self.toList).map action
  let b := actions.foldl (Backups.perform xz skipCompress)
    ⟨(∅ : CpioEntries).insert ".backup" backupDir, ""⟩
  let stored :=
    if b.rmList ≠ "" then b.stored.insert ".backup/.rmlist" (rmListEntry b.rmList) else b.stored
  self ∪ stored

def restoredAs (name : String) (entry : CpioEntry) : String × CpioEntry :=
  match if EndsWith name ".xz" then entry.decompress xz else none with
  | some unpacked => (slice name 8 (name.toList.length - 3), unpacked)
  | none => (slice name 8 name.toList.length, entry)

def Backups.recall (b : Backups) : String × CpioEntry → Backups
  | (name, entry) =>
      if name = ".backup/.rmlist" then
        match ofUtf8? entry.data with
        | some data => { b with rmList := b.rmList ++ data }
        | none => b
      else if name ≠ ".backup/.magisk" then
        let (newName, entry) := restoredAs xz name entry
        { b with stored := b.stored.insert newName entry }
      else b

def restoreEntries (self : CpioEntries) : CpioEntries :=
  let extracted := self.toList.filter fun e => StartsWith e.1 ".backup/"
  let self := self.filter fun name _ => ¬ StartsWith name ".backup/"
  let b := extracted.foldl (Backups.recall xz) ⟨∅, ""⟩
  let self := rm self ".backup" false
  if b.rmList = "" ∧ b.stored.isEmpty then ∅
  else
    let names := (b.rmList.toList.splitOn '\x00').map String.ofList
    let self := names.foldl (fun self name => if name ≠ "" then rm self name false else self) self
    self ∪ b.stored

def Action.stored? : Action → Option (String × CpioEntry)
  | .backup name entry => some (storedAs xz skipCompress name entry)
  | .record _ => none
  | .noop => none

def Action.recorded? : Action → Option String
  | .backup _ _ => none
  | .record name => some name
  | .noop => none

theorem stored_foldl_perform (actions : List Action) (b : Backups) :
    (actions.foldl (Backups.perform xz skipCompress) b).stored
      = b.stored.insertMany (actions.filterMap (Action.stored? xz skipCompress)) := by
  induction actions generalizing b with
  | nil => simp
  | cons a actions ih =>
      rw [List.foldl_cons, ih]
      cases a with
      | backup name entry => exact Std.ExtTreeMap.insertMany_cons.symm
      | record name => rfl
      | noop => rfl

theorem rmList_foldl_perform (actions : List Action) (b : Backups) :
    (actions.foldl (Backups.perform xz skipCompress) b).rmList.toList
      = b.rmList.toList
        ++ (actions.filterMap Action.recorded?).flatMap fun name => name.toList ++ ['\x00'] := by
  induction actions generalizing b with
  | nil => simp
  | cons a actions ih =>
      rw [List.foldl_cons, ih]
      cases a with
      | backup name entry => rfl
      | record name =>
          have hrecorded : (Action.record name :: actions).filterMap Action.recorded?
              = name :: actions.filterMap Action.recorded? := rfl
          rw [hrecorded, List.flatMap_cons, Backups.perform, String.toList_append,
            String.toList_append]
          simp
      | noop => rfl

-- The entry that `restore` makes of one of those under `.backup/`.
def recalled? (e : String × CpioEntry) : Option (String × CpioEntry) :=
  if e.1 = ".backup/.rmlist" ∨ e.1 = ".backup/.magisk" then none else some (restoredAs xz e.1 e.2)

-- The text it adds to the list of names to remove.
def recalledText (e : String × CpioEntry) : List Char :=
  if e.1 = ".backup/.rmlist" then ((ofUtf8? e.2.data).map String.toList).getD [] else []

theorem stored_recall (b : Backups) (e : String × CpioEntry) :
    (b.recall xz e).stored = b.stored.insertMany (recalled? xz e).toList := by
  rw [Backups.recall, recalled?]
  split
  · rename_i hname
    rw [if_pos (Or.inl hname)]
    split <;> simp
  · rename_i hrmlist
    split
    · rename_i hmagisk
      rw [if_neg (by tauto), Option.toList_some, insertMany_list_singleton]
    · rename_i hmagisk
      rw [if_pos (by tauto)]
      simp

theorem rmList_recall (b : Backups) (e : String × CpioEntry) :
    (b.recall xz e).rmList.toList = b.rmList.toList ++ recalledText e := by
  rw [Backups.recall, recalledText]
  split
  · split <;> simp_all
  · split <;> simp

theorem stored_foldl_recall (entries : List (String × CpioEntry)) (b : Backups) :
    (entries.foldl (Backups.recall xz) b).stored
      = b.stored.insertMany (entries.filterMap (recalled? xz)) := by
  induction entries generalizing b with
  | nil => simp
  | cons e entries ih =>
      rw [List.foldl_cons, ih, stored_recall]
      cases hrecalled : recalled? xz e with
      | none => rw [List.filterMap_cons_none hrecalled, Option.toList_none]; simp
      | some stored =>
          rw [List.filterMap_cons_some hrecalled, Option.toList_some,
            insertMany_list_singleton, insertMany_cons]

theorem rmList_foldl_recall (entries : List (String × CpioEntry)) (b : Backups) :
    (entries.foldl (Backups.recall xz) b).rmList.toList
      = b.rmList.toList ++ entries.flatMap recalledText := by
  induction entries generalizing b with
  | nil => simp
  | cons e entries ih =>
      rw [List.foldl_cons, ih, rmList_recall, List.flatMap_cons, List.append_assoc]

theorem getElem?_rm (entries : CpioEntries) (path : String) (recursive : Bool) (name : String) :
    (rm entries path recursive)[name]?
      = if normPath path = name ∨ recursive ∧ StartsWith name (normPath path ++ "/") then none
        else entries[name]? := by
  have herase : (entries.erase (normPath path))[name]?
      = if normPath path = name then none else entries[name]? := by
    simp only [getElem?_erase, Std.LawfulEqOrd.compare_eq_iff_eq]
  cases recursive with
  | false => simp [rm, herase]
  | true =>
      simp only [rm, if_true, getElem?_filter', herase]
      by_cases hpath : normPath path = name
      · simp [hpath]
      · by_cases hstart : StartsWith name (normPath path ++ "/")
        · simp [hpath, hstart]
        · cases entries[name]? <;> simp [hpath, hstart]

theorem mem_of_mem_rm {entries : CpioEntries} {path : String} {recursive : Bool}
    (hmem : name ∈ rm entries path recursive) : name ∈ entries := by
  rw [mem_iff_isSome_getElem?, getElem?_rm] at hmem
  split at hmem
  · cases hmem
  · exact Std.ExtTreeMap.mem_iff_isSome_getElem?.2 hmem

theorem getElem?_rm_names (names : List String) (entries : CpioEntries) (name : String) :
    (names.foldl (fun self name => if name ≠ "" then rm self name false else self) entries)[name]?
      = if ∃ path ∈ names, path ≠ "" ∧ normPath path = name then none else entries[name]? := by
  induction names generalizing entries with
  | nil => simp
  | cons path names ih =>
      rw [List.foldl_cons, ih]
      by_cases hrest : ∃ path ∈ names, path ≠ "" ∧ normPath path = name
      · rw [if_pos hrest, if_pos]
        obtain ⟨path', hmem, hpath'⟩ := hrest
        exact ⟨path', List.mem_cons_of_mem path hmem, hpath'⟩
      · rw [if_neg hrest]
        by_cases hpath : path ≠ ""
        · rw [if_pos hpath, getElem?_rm]
          by_cases hname : normPath path = name
          · rw [if_pos (Or.inl hname), if_pos ⟨path, List.mem_cons_self, hpath, hname⟩]
          · rw [if_neg (by simp [hname]), if_neg]
            simpa [hname] using hrest
        · rw [if_neg hpath, if_neg]
          simpa [hpath] using hrest

section Compare

variable {o self : CpioEntries} {name : String}

theorem action_eq_backup {n : String} {le re : Option CpioEntry} :
    action (n, le, re) = .backup name entry ↔
      n = name ∧ le = some entry ∧ ∀ r, re = some r → r.data ≠ entry.data := by
  cases le with
  | none => cases re <;> simp [action]
  | some l =>
      cases re with
      | none => simp [action]
      | some r =>
          by_cases hdata : r.data = l.data
          · simp only [action, hdata, ne_eq, not_true, if_false, reduceCtorEq, false_iff]
            rintro ⟨-, hl, hr⟩
            cases hl
            exact hr r rfl hdata
          · simp only [action, ne_eq, hdata, not_false_iff, if_true, Action.backup.injEq,
              Option.some.injEq, forall_eq']
            constructor
            · rintro ⟨rfl, rfl⟩
              exact ⟨rfl, rfl, hdata⟩
            · rintro ⟨rfl, rfl, -⟩
              exact ⟨rfl, rfl⟩

theorem action_eq_record {n : String} {le re : Option CpioEntry} :
    action (n, le, re) = .record name ↔ n = name ∧ le = none ∧ re.isSome := by
  cases le with
  | none => cases re <;> simp [action]
  | some l =>
      cases re with
      | none => simp [action]
      | some r =>
          simp only [action]
          split <;> simp

theorem backup_mem_actions :
    .backup name entry ∈ (fullJoin o.toList self.toList).map action ↔
      o[name]? = some entry ∧ ∀ r, self[name]? = some r → r.data ≠ entry.data := by
  rw [List.mem_map]
  constructor
  · rintro ⟨⟨n, le, re⟩, hjoin, haction⟩
    obtain ⟨rfl, rfl, hre⟩ := action_eq_backup.1 haction
    obtain ⟨hle, rfl, -⟩ := mem_fullJoin_toList.1 hjoin
    exact ⟨hle, hre⟩
  · rintro ⟨hentry, hself⟩
    exact ⟨(name, some entry, self[name]?), mem_fullJoin_toList.2 ⟨hentry, rfl, Or.inl rfl⟩,
      action_eq_backup.2 ⟨rfl, rfl, hself⟩⟩

theorem record_mem_actions :
    .record name ∈ (fullJoin o.toList self.toList).map action ↔
      o[name]? = none ∧ self[name]?.isSome := by
  rw [List.mem_map]
  constructor
  · rintro ⟨⟨n, le, re⟩, hjoin, haction⟩
    obtain ⟨rfl, rfl, hre⟩ := action_eq_record.1 haction
    obtain ⟨hle, rfl, -⟩ := mem_fullJoin_toList.1 hjoin
    exact ⟨hle, hre⟩
  · rintro ⟨hnone, hself⟩
    exact ⟨(name, none, self[name]?), mem_fullJoin_toList.2 ⟨hnone, rfl, Or.inr hself⟩,
      action_eq_record.2 ⟨rfl, rfl, hself⟩⟩

end Compare

def Forall (P : String → CpioEntry → Prop) (entries : CpioEntries) : Prop :=
  ∀ name entry, entries[name]? = some entry → P name entry

theorem forall_names_iff {P : String → Prop} {entries : CpioEntries} :
    Forall (fun name _ => P name) entries ↔ ∀ name ∈ entries, P name := by
  constructor
  · intro hentries name hmem
    obtain ⟨entry, hentry⟩ := Option.isSome_iff_exists.1
      (Std.ExtTreeMap.mem_iff_isSome_getElem?.1 hmem)
    exact hentries name entry hentry
  · intro hnames name entry hentry
    exact hnames name (Std.ExtTreeMap.mem_iff_isSome_getElem?.2 (by simp [hentry]))

section Forall

variable {P : String → CpioEntry → Prop} {entries o self : CpioEntries}

theorem forall_empty : Forall P ∅ := by
  intro name entry hentry
  simp at hentry

theorem forall_insert (hentries : Forall P entries)
    (hentry : P name entry) : Forall P (entries.insert name entry) := by
  intro name' entry' hget
  rw [getElem?_insert] at hget
  split at hget
  · rename_i heq
    cases hget
    rw [← Std.LawfulEqOrd.eq_of_compare heq]
    exact hentry
  · exact hentries name' entry' hget

theorem forall_insertMany (hentries : Forall P entries) {added : List (String × CpioEntry)}
    (hadded : ∀ e ∈ added, P e.1 e.2) : Forall P (entries.insertMany added) := by
  intro name entry hentry
  rcases mem_of_getElem?_insertMany hentry with hmem | hget
  · exact hadded _ hmem
  · exact hentries name entry hget

theorem forall_union {s t : CpioEntries} (hs : Forall P s) (ht : Forall P t) : Forall P (s ∪ t) := by
  intro name entry hentry
  rw [getElem?_union] at hentry
  cases hget : t[name]? with
  | some entry' =>
      rw [hget, Option.some_or] at hentry
      cases hentry
      exact ht name _ hget
  | none =>
      rw [hget, Option.none_or] at hentry
      exact hs name entry hentry

theorem forall_rm (hentries : Forall P entries) (path : String) (recursive : Bool) :
    Forall P (rm entries path recursive) := by
  intro name entry hentry
  rw [getElem?_rm] at hentry
  split at hentry
  · cases hentry
  · exact hentries name entry hentry

theorem forall_rm_names (hentries : Forall P entries) (names : List String) :
    Forall P (names.foldl
      (fun self name => if name ≠ "" then rm self name false else self) entries) := by
  intro name entry hentry
  rw [getElem?_rm_names] at hentry
  split at hentry
  · cases hentry
  · exact hentries name entry hentry

theorem forall_filter (hentries : Forall P entries) (keep : String → CpioEntry → Bool) :
    Forall P (entries.filter keep) := by
  intro name entry hentry
  rw [getElem?_filter', Option.filter_eq_some_iff] at hentry
  exact hentries name entry hentry.1

theorem forall_stored_actions {xz : Xz} {skipCompress : Bool}
    (hstored : ∀ name entry, P name entry →
      P (storedAs xz skipCompress name entry).1 (storedAs xz skipCompress name entry).2)
    (ho : Forall P o) (self : CpioEntries) :
    ∀ e ∈ ((fullJoin o.toList self.toList).map action).filterMap (Action.stored? xz skipCompress),
      P e.1 e.2 := by
  intro e he
  obtain ⟨a, ha, hae⟩ := List.mem_filterMap.1 he
  cases a with
  | backup name entry =>
      cases hae
      exact hstored name entry (ho name entry (backup_mem_actions.1 ha).1)
  | record name => cases hae
  | noop => cases hae

theorem forall_backupEntries {xz : Xz} {skipCompress : Bool} (hdir : P ".backup" backupDir)
    (hlist : ∀ rmList, P ".backup/.rmlist" (rmListEntry rmList))
    (hstored : ∀ name entry, P name entry →
      P (storedAs xz skipCompress name entry).1 (storedAs xz skipCompress name entry).2)
    (ho : Forall P o) (hself : Forall P self) : Forall P (backupEntries xz skipCompress o self) := by
  apply forall_union (forall_rm hself ".backup" true)
  have hentries := forall_insertMany (forall_insert forall_empty hdir)
    (forall_stored_actions hstored (forall_rm ho ".backup" true) (rm self ".backup" true))
  split
  · rw [stored_foldl_perform]
    exact forall_insert hentries (hlist _)
  · rw [stored_foldl_perform]
    exact hentries

theorem forall_restoreEntries {xz : Xz}
    (hrestored : ∀ name entry, P name entry →
      P (restoredAs xz name entry).1 (restoredAs xz name entry).2)
    (hself : Forall P self) : Forall P (restoreEntries xz self) := by
  rw [restoreEntries]
  split
  · exact forall_empty
  · apply forall_union
    · exact forall_rm_names (forall_rm (forall_filter hself _) ".backup" false) _
    · rw [stored_foldl_recall]
      refine forall_insertMany forall_empty ?_
      intro e he
      obtain ⟨⟨name, entry⟩, hmem, hrecalled⟩ := List.mem_filterMap.1 he
      have hget := Std.ExtTreeMap.mem_toList_iff_getElem?_eq_some.1 (List.mem_of_mem_filter hmem)
      rw [recalled?] at hrecalled
      split at hrecalled
      · cases hrecalled
      · cases hrecalled
        exact hrestored name entry (hself name entry hget)

end Forall

theorem nulFree_storedAs (hname : NulFree name) (xz : Xz) (skipCompress : Bool)
    (entry : CpioEntry) : NulFree (storedAs xz skipCompress name entry).1 := by
  have hdir : NulFree ".backup/" := by decide
  rw [storedAs]
  split
  · exact (hdir.append hname).append (by decide)
  · exact hdir.append hname

theorem nulFree_restoredAs (hname : NulFree name) (xz : Xz) (entry : CpioEntry) :
    NulFree (restoredAs xz name entry).1 := by
  rw [restoredAs]
  split
  · exact hname.slice _ _
  · exact hname.slice _ _

theorem nulFree_backupEntries {o self : CpioEntries}
    (ho : ∀ name ∈ o, NulFree name) (hself : ∀ name ∈ self, NulFree name) :
    ∀ name ∈ backupEntries xz skipCompress o self, NulFree name := by
  rw [← forall_names_iff] at ho hself ⊢
  exact forall_backupEntries (by decide) (fun _ => by decide)
    (fun _ entry hname => nulFree_storedAs hname xz skipCompress entry) ho hself

theorem nulFree_restoreEntries {self : CpioEntries}
    (hself : ∀ name ∈ self, NulFree name) : ∀ name ∈ restoreEntries xz self, NulFree name := by
  rw [← forall_names_iff] at hself ⊢
  exact forall_restoreEntries (fun _ entry hname => nulFree_restoredAs hname xz entry) hself

def backup (self : Cpio) (origin : List UInt8) (skipCompress : Bool) : Outcome LoadError Cpio := do
  let o ← loadFromData origin
  return ⟨backupEntries xz skipCompress o.entries self.entries,
    nulFree_backupEntries xz skipCompress o.nulFree self.nulFree⟩

def restore (self : Cpio) : Cpio :=
  ⟨restoreEntries xz self.entries, nulFree_restoreEntries xz self.nulFree⟩

end Cpio

end MagiskNative
