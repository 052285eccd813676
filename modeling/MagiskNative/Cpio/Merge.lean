import MagiskNative.Lib.Loop
import MagiskNative.Cpio.Restore

/-!
# The walk over two archives

`backup` goes through the original and the modified archive with two iterators. Each of them has a slot for
the entry it has come to; a round empties the slot with the smaller name and puts the other entry back.
-/

namespace MagiskNative.Cpio

open Text OrderedMap Std.ExtTreeMap

variable {ls rs : List (String × CpioEntry)}

structure Walk where
  lhs : Option (String × CpioEntry)
  left : List (String × CpioEntry)
  rhs : Option (String × CpioEntry)
  right : List (String × CpioEntry)
  backups : Backups

def Walk.start (o self : CpioEntries) : Walk :=
  ⟨o.toList.head?, o.toList.tail, self.toList.head?, self.toList.tail,
    ⟨(∅ : CpioEntries).insert ".backup" backupDir, ""⟩⟩

-- The iterator is moved forward if the slot is empty.
def refill (slot : Option (String × CpioEntry)) (iter : List (String × CpioEntry)) :
    Option (String × CpioEntry) × List (String × CpioEntry) :=
  if slot.isNone then (iter.head?, iter.tail) else (slot, iter)

def mergeRound (xz : Xz) (skipCompress : Bool) (w : Walk) : Loop.Round Walk Backups :=
  let (lhs, left) := refill w.lhs w.left
  let (rhs, right) := refill w.rhs w.right
  match lhs, rhs with
  | some (ln, le), some (rn, re) =>
      match compare ln rn with
      | .lt =>
          -- Put rhs back
          .next ⟨none, left, some (rn, re), right,
            w.backups.perform xz skipCompress (.backup ln le)⟩
      | .gt =>
          -- Put lhs back
          .next ⟨some (ln, le), left, none, right, w.backups.perform xz skipCompress (.record rn)⟩
      | .eq =>
          .next ⟨none, left, none, right, w.backups.perform xz skipCompress
            (if re.data ≠ le.data then .backup ln le else .noop)⟩
  | some (ln, le), none =>
      .next ⟨none, left, none, right, w.backups.perform xz skipCompress (.backup ln le)⟩
  | none, some (rn, _) =>
      .next ⟨none, left, none, right, w.backups.perform xz skipCompress (.record rn)⟩
  | none, none => .leave w.backups

section Walk

variable {xz : Xz} {skipCompress : Bool}

theorem refill_eq (slot : Option (String × CpioEntry)) (iter : List (String × CpioEntry)) :
    refill slot iter = ((slot.toList ++ iter).head?, (slot.toList ++ iter).tail) := by
  cases slot <;> rfl

theorem head_toList_append_tail (l : List (String × CpioEntry)) : l.head?.toList ++ l.tail = l := by
  cases l <;> rfl

theorem mergeRound_eq {w : Walk}
    (hls : w.lhs.toList ++ w.left = ls) (hrs : w.rhs.toList ++ w.right = rs) :
    mergeRound xz skipCompress w = mergeRound xz skipCompress ⟨none, ls, none, rs, w.backups⟩ := by
  simp only [mergeRound, refill_eq, hls, hrs, Option.toList_none, List.nil_append]

theorem mergeRound_cons {kl kr : String} {x y : CpioEntry} {w : Walk}
    (hls : w.lhs.toList ++ w.left = (kl, x) :: ls) (hrs : w.rhs.toList ++ w.right = (kr, y) :: rs) :
    mergeRound xz skipCompress w
      = .next (match compare kl kr with
        | .lt => ⟨none, ls, some (kr, y), rs, w.backups.perform xz skipCompress (.backup kl x)⟩
        | .gt => ⟨some (kl, x), ls, none, rs, w.backups.perform xz skipCompress (.record kr)⟩
        | .eq => ⟨none, ls, none, rs, w.backups.perform xz skipCompress
            (if y.data ≠ x.data then .backup kl x else .noop)⟩) := by
  rw [mergeRound_eq hls hrs, mergeRound, refill_eq, refill_eq]
  simp only [Option.toList_none, List.nil_append, List.head?_cons, List.tail_cons]
  cases compare kl kr <;> rfl

/-- **The rounds of the walk.** The induction follows the walk over the two lists that are left; each
round takes an entry from one of them or from both. -/
theorem run_mergeRound {w : Walk}
    (hls : w.lhs.toList ++ w.left = ls) (hrs : w.rhs.toList ++ w.right = rs) {rounds : Nat}
    (hrounds : ls.length + rs.length < rounds) :
    Loop.run (mergeRound xz skipCompress) rounds w
      = some (((fullJoin ls rs).map action).foldl (Backups.perform xz skipCompress) w.backups) := by
  induction ls, rs using fullJoin.induct generalizing w rounds with
  | case1 =>
      obtain ⟨rounds, rfl⟩ := Nat.exists_eq_add_of_lt hrounds
      rw [Loop.run_succ_leave (mergeRound_eq hls hrs), fullJoin]
      rfl
  | case2 k x rest ih | case3 k x rest ih =>
      obtain ⟨rounds, rfl⟩ := Nat.exists_eq_add_of_lt hrounds
      rw [Loop.run_succ_next (mergeRound_eq hls hrs), ih rfl rfl (by simp; omega), fullJoin]
      rfl
  | case4 kl x ls kr y rs hcmp ih | case5 kl x ls kr y rs hcmp ih | case6 kl x ls kr y rs hcmp ih =>
      obtain ⟨rounds, rfl⟩ := Nat.exists_eq_add_of_lt hrounds
      rw [Loop.run_succ_next (mergeRound_cons hls hrs), hcmp, ih rfl rfl (by simp; omega), fullJoin, hcmp]
      rfl

theorem run_start (xz : Xz) (skipCompress : Bool) (o self : CpioEntries) :
    Loop.run (mergeRound xz skipCompress) (o.size + self.size + 1) (.start o self)
      = some (gathered xz skipCompress o self) := by
  apply run_mergeRound (head_toList_append_tail _) (head_toList_append_tail _)
  rw [length_toList, length_toList]
  omega

end Walk

section Merges

variable {xz : Xz} {skipCompress : Bool} {o self : CpioEntries}

def Action.saved? : Action → Option (String × CpioEntry)
  | .backup name entry => some (name, entry)
  | .record _ => none
  | .noop => none

def changedEntries (o self : CpioEntries) : List (String × CpioEntry) :=
  ((fullJoin o.toList self.toList).map action).filterMap Action.saved?

theorem mem_changedEntries {name : String} {entry : CpioEntry} :
    (name, entry) ∈ changedEntries o self ↔ Changed o self name entry := by
  rw [changedEntries, List.mem_filterMap]
  constructor
  · rintro ⟨a, ha, hsaved⟩
    cases a with
    | backup n e =>
        cases hsaved
        exact backup_mem_actions.1 ha
    | record n => cases hsaved
    | noop => cases hsaved
  · intro hchanged
    exact ⟨.backup name entry, backup_mem_actions.2 hchanged, rfl⟩

theorem stored_gathered :
    (gathered xz skipCompress o self).stored
      = ((∅ : CpioEntries).insert ".backup" backupDir).insertMany
          ((changedEntries o self).map fun e => storedAs xz skipCompress e.1 e.2) := by
  rw [gathered, stored_foldl_perform, changedEntries, List.map_filterMap]
  congr 2
  funext a
  cases a <;> rfl

theorem rmList_gathered_eq :
    (gathered xz skipCompress o self).rmList
      = String.join ((addedNames o self).map fun name => name ++ "\x00") := by
  apply String.toList_inj.1
  rw [rmList_gathered, String.toList_join, List.flatMap_map]
  congr 1
  funext name
  rw [String.toList_append]
  rfl

theorem fst_of_saved {e : String × Option CpioEntry × Option CpioEntry} {a : String × CpioEntry}
    (ha : (action e).saved? = some a) : a.1 = e.1 := by
  obtain ⟨n, le, re⟩ := e
  cases hact : action (n, le, re) with
  | backup name entry =>
      rw [hact] at ha
      cases ha
      exact (action_eq_backup.1 hact).1.symm
  | record name =>
      rw [hact] at ha
      cases ha
  | noop =>
      rw [hact] at ha
      cases ha

theorem eq_of_recorded {e : String × Option CpioEntry × Option CpioEntry} {name : String}
    (ha : (action e).recorded? = some name) : name = e.1 := by
  obtain ⟨n, le, re⟩ := e
  cases hact : action (n, le, re) with
  | backup n' entry =>
      rw [hact] at ha
      cases ha
  | record n' =>
      rw [hact] at ha
      cases ha
      exact (action_eq_record.1 hact).1.symm
  | noop =>
      rw [hact] at ha
      cases ha

theorem utf8Bytes_lt_of_compare {a b : String} (hlt : compare a b = .lt) : utf8Bytes a < utf8Bytes b :=
  utf8Bytes_lt (compare_lt_iff_lt.1 hlt)

theorem pairwise_changedEntries :
    (changedEntries o self).Pairwise fun a b => utf8Bytes a.1 < utf8Bytes b.1 := by
  rw [changedEntries, List.filterMap_map, List.pairwise_filterMap]
  refine (pairwise_fullJoin_toList o self).imp ?_
  intro e e' hlt a ha a' ha'
  rw [fst_of_saved ha, fst_of_saved ha']
  exact utf8Bytes_lt_of_compare hlt

theorem pairwise_addedNames :
    (addedNames o self).Pairwise fun a b => utf8Bytes a < utf8Bytes b := by
  rw [addedNames, List.filterMap_map, List.pairwise_filterMap]
  refine (pairwise_fullJoin_toList o self).imp ?_
  intro e e' hlt a ha a' ha'
  rw [eq_of_recorded ha, eq_of_recorded ha']
  exact utf8Bytes_lt_of_compare hlt

/-- What the loop has made of two archives when it is left: the entries of the original that are saved
are those that the modified archive does not have or has with a difference; the names on the list are
those that only the modified archive has. -/
structure Merged (differ : CpioEntry → CpioEntry → Prop) (xz : Xz) (skipCompress : Bool)
    (o self : CpioEntries) (b : Backups) (changed : List (String × CpioEntry))
    (added : List String) : Prop where
  run : Loop.run (mergeRound xz skipCompress) (o.size + self.size + 1) (.start o self) = some b
  stored : b.stored = ((∅ : CpioEntries).insert ".backup" backupDir).insertMany
    (changed.map fun e => storedAs xz skipCompress e.1 e.2)
  mem_changed : ∀ name entry, (name, entry) ∈ changed ↔
    o[name]? = some entry ∧ ∀ r, self[name]? = some r → differ r entry
  changed_ascending : changed.Pairwise fun a b => utf8Bytes a.1 < utf8Bytes b.1
  rmList : b.rmList = String.join (added.map fun name => name ++ "\x00")
  mem_added : ∀ name, name ∈ added ↔ o[name]? = none ∧ self[name]?.isSome
  added_ascending : added.Pairwise fun a b => utf8Bytes a < utf8Bytes b

/-- **What the loop of `backup` does**, once both archives have dropped an older backup. Nothing that
the modified archive then has is touched. -/
def Merges (differ : CpioEntry → CpioEntry → Prop) (xz : Xz) (skipCompress : Bool)
    (o self : CpioEntries) : Prop :=
  (∃ b changed added, Merged differ xz skipCompress (rm o ".backup" true) (rm self ".backup" true)
    b changed added) ∧
  ∀ (name : String) (entry : CpioEntry), (rm self ".backup" true)[name]? = some entry →
    (backupEntries xz skipCompress o self)[name]? = some entry

/-- **The merge of two archives.** The walk over both saves every entry of the original that the modified
archive does not have or has with other data, lists every name that only the modified archive has, and
keeps the modified archive. -/
theorem merges (xz : Xz) (skipCompress : Bool) (o self : CpioEntries) :
    Merges (fun r entry => r.data ≠ entry.data) xz skipCompress o self := by
  refine ⟨⟨_, changedEntries _ _, addedNames _ _, run_start xz skipCompress _ _, stored_gathered,
    fun name entry => mem_changedEntries, pairwise_changedEntries, rmList_gathered_eq,
    fun name => mem_addedNames, pairwise_addedNames⟩, ?_⟩
  intro name entry hentry
  obtain ⟨hstart, hdir⟩ := not_backup_of_mem_rm hentry
  rw [getElem?_backupEntries_of_not_startsWith hstart hdir, hentry]

/-- An entry whose mode alone is another one is not saved. -/
theorem not_merges_mode :
    ¬ Merges (· ≠ ·) Xz.sample true ((∅ : CpioEntries).insert "init" ⟨0o100755, 0, 0, 0, 0, [1]⟩)
      ((∅ : CpioEntries).insert "init" ⟨0o100700, 0, 0, 0, 0, [1]⟩) := by
  rintro ⟨⟨b, changed, -, hrun, hstored, hchanged, -⟩, -⟩
  have hget : ∀ e : CpioEntry, (rm ((∅ : CpioEntries).insert "init" e) ".backup" true)["init"]?
      = some e := by
    intro e
    have hnorm : normPath ".backup" = ".backup" := by decide
    rw [getElem?_rm, hnorm, if_neg (by decide), getElem?_insert_self]
  -- The entry is among those that differ, so there would be a copy of it.
  have hmem := (hchanged "init" _).2 ⟨hget _, by
    intro r hr
    rw [hget] at hr
    cases hr
    decide⟩
  have hsome : b.stored[".backup/init"]?.isSome := by
    rw [hstored]
    apply isSome_getElem?_insertMany
    exact .inr ⟨_, List.mem_map.2 ⟨_, hmem, rfl⟩⟩
  obtain ⟨e, he⟩ := Option.isSome_iff_exists.1 hsome
  rw [run_start, Option.some.injEq] at hrun
  rw [← hrun] at he
  rcases changed_of_stored_gathered he with h | ⟨name, entry, ⟨hname, hdata⟩, hkey⟩
  · exact absurd h (by decide)
  · have hinit : ".backup/" ++ "init" = ".backup/" ++ name := (congrArg Prod.fst hkey).symm
    obtain rfl := append_left_cancel hinit
    rw [hget] at hname
    cases hname
    exact hdata _ (hget _) rfl

end Merges

theorem rm_backupEntries (xz : Xz) (skipCompress : Bool) (o self : CpioEntries) :
    rm (backupEntries xz skipCompress o self) ".backup" true = rm self ".backup" true := by
  apply ext_getElem?
  intro name
  have hnorm : normPath ".backup" = ".backup" := by decide
  rw [getElem?_rm, hnorm]
  split
  · rename_i hname
    rw [getElem?_rm, hnorm, if_pos hname]
  · rename_i hname
    rw [not_or] at hname
    exact getElem?_backupEntries_of_not_startsWith (fun hstart => hname.2 ⟨rfl, hstart⟩)
      (Ne.symm hname.1)

/-- **Backing up again.** The old backup is dropped as a whole, and the same one is made again. -/
theorem backup_backup (xz : Xz) (self : Cpio) (origin : List UInt8) (skipCompress : Bool) :
    (do
      let saved ← backup xz self origin skipCompress
      backup xz saved origin skipCompress) = backup xz self origin skipCompress := by
  cases horigin : loadFromData origin with
  | ok o =>
      have hagain : backupEntries xz skipCompress o.entries
          (backupEntries xz skipCompress o.entries self.entries)
          = backupEntries xz skipCompress o.entries self.entries := by
        rw [backupEntries, rm_backupEntries]
        rfl
      simp only [backup, horigin, Outcome.ok_bind, Outcome.pure_eq, hagain]
  | err e => simp only [backup, horigin]; rfl
  | panic => simp only [backup, horigin]; rfl

end MagiskNative.Cpio
