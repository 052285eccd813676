import MagiskNative.Lib.FileTree
import MagiskNative.Lib.Text

/-!
# Moving a directory into another

`Directory::move_into` of `base/dir.rs` renames the entries of the source one after the other, in the order
in which `readdir` lists them. A directory that the destination has as well is moved into it in turn; the
call returns after the first one of these.
-/

namespace MagiskNative.Base

open Text

open FileTree (Name)

/-- What an entry is. A `link` leads to a directory in neither of the two trees; a link that leads nowhere
or to a file is an `other` entry, as it cannot be opened as a directory either. -/
inductive Kind where
  | dir
  | link (target : List UInt8)
  | other (content : List UInt8)
  deriving DecidableEq, Repr

/-- A directory as `readdir` lists it, without `.` and `..`. With an entry stand the entries of the
directory that it is or, for a link, leads to. -/
inductive Dir where
  | nil
  | entry (name : Name) (kind : Kind) (sub rest : Dir)
  deriving DecidableEq, Repr

inductive Errno where
  | noent
  | isdir
  | notdir
  | notempty
  deriving DecidableEq, Repr

namespace Dir

def lookup (name : Name) : Dir → Option (Kind × Dir)
  | nil => none
  | entry name' kind sub rest => if name' = name then some (kind, sub) else rest.lookup name

def put : Dir → Name → Kind → Dir → Dir
  | nil, name, kind, sub => entry name kind sub nil
  | entry name' kind' sub' rest, name, kind, sub =>
      if name' = name then entry name kind sub rest else entry name' kind' sub' (rest.put name kind sub)

def containsPath (dir : Dir) (name : Name) : Bool := (dir.lookup name).isSome

/-- `openat` with `O_RDONLY`, which follows a link, and `fdopendir`. -/
def openAsDirAt (dir : Dir) (name : Name) : Except Errno (Kind × Dir) :=
  match dir.lookup name with
  | none => .error .noent
  | some (.other _, _) => .error .notdir
  | some (kind, sub) => .ok (kind, sub)

/-- `renameat` of an entry to its own name in `dir`. -/
def renameTo (dir : Dir) (name : Name) (kind : Kind) (sub : Dir) : Except Errno Dir :=
  match dir.lookup name with
  | none => .ok (dir.put name kind sub)
  | some (.dir, old) =>
      if kind ≠ .dir then .error .isdir
      else if old ≠ .nil then .error .notempty
      else .ok (dir.put name kind sub)
  | some _ => if kind = .dir then .error .notdir else .ok (dir.put name kind sub)

/-- `unlinkat` with `AT_REMOVEDIR` of a directory with these entries. -/
def removeDir (sub : Dir) : Except Errno Unit := if sub = .nil then .ok () else .error .notempty

/-- `Directory::move_into`, with what is left of the source and what the destination has become. -/
def moveInto : Dir → Dir → Except Errno (Dir × Dir)
  | nil, dir => .ok (nil, dir)
  | entry name kind sub rest, dir => do
      -- `read` goes on to the next entry if the name is not UTF-8
      if ofUtf8? name = none then
        let (rest, dir) ← rest.moveInto dir
        return (entry name kind sub rest, dir)
      if kind = .dir ∧ dir.containsPath name then
        let (destKind, dest) ← dir.openAsDirAt name
        let (sub, dest) ← sub.moveInto dest
        removeDir sub
        return (rest, dir.put name destKind dest)
      rest.moveInto (← dir.renameTo name kind sub)

section Lookup

variable {name name' : Name} {kind : Kind} {sub : Dir}

@[simp] theorem lookup_nil : nil.lookup name = none := rfl

@[simp] theorem lookup_entry_self {rest : Dir} : (entry name kind sub rest).lookup name = some (kind, sub) :=
  if_pos rfl

theorem lookup_entry_of_ne (hne : name' ≠ name) {rest : Dir} :
    (entry name' kind sub rest).lookup name = rest.lookup name :=
  if_neg hne

@[simp] theorem lookup_put_self (dir : Dir) : (dir.put name kind sub).lookup name = some (kind, sub) := by
  induction dir with
  | nil => simp [put]
  | entry name' kind' sub' rest _ ih =>
      unfold put
      by_cases hname : name' = name
      · rw [if_pos hname, lookup_entry_self]
      · rw [if_neg hname, lookup_entry_of_ne hname, ih]

theorem lookup_put_of_ne (hne : name' ≠ name) (dir : Dir) :
    (dir.put name' kind sub).lookup name = dir.lookup name := by
  induction dir with
  | nil => rw [put, lookup_entry_of_ne hne]
  | entry name'' kind' sub' rest _ ih =>
      unfold put
      by_cases hname : name'' = name'
      · subst hname
        rw [if_pos rfl, lookup_entry_of_ne hne, lookup_entry_of_ne hne]
      · rw [if_neg hname]
        by_cases hname' : name'' = name
        · subst hname'
          rw [lookup_entry_self, lookup_entry_self]
        · rw [lookup_entry_of_ne hname', lookup_entry_of_ne hname', ih]

end Lookup

def Distinct : Dir → Prop
  | nil => True
  | entry name _ sub rest => rest.lookup name = none ∧ sub.Distinct ∧ rest.Distinct

/-- What is at a path, if anything; nothing in the tree is behind a link. -/
def at? (dir : Dir) : List Name → Option Kind
  | [] => some .dir
  | name :: path =>
      match dir.lookup name with
      | none => none
      | some (.dir, sub) => sub.at? path
      | some (kind, _) => if path = [] then some kind else none

/-- What is at a path of the merge: directories on both sides are merged, and otherwise the source's entry
comes before the destination's. -/
def merged (src dst : Dir) : List Name → Option Kind
  | [] => some .dir
  | name :: path =>
      match src.lookup name, dst.lookup name with
      | none, _ => dst.at? (name :: path)
      | some (.dir, sub), some (.dir, dest) => merged sub dest path
      | some _, _ => src.at? (name :: path)

def Merges (src dst src' dst' : Dir) : Prop :=
  src' = nil ∧ ∀ path, dst'.at? path = merged src dst path

/-- The names are UTF-8, and a directory that the destination has as well is listed last, is a directory
there and not a link, and the same holds inside it. -/
def Mergeable : Dir → Dir → Prop
  | nil, _ => True
  | entry name kind sub rest, dst =>
      ofUtf8? name ≠ none ∧ rest.Mergeable dst ∧
        ∀ found, kind = .dir → dst.lookup name = some found →
          rest = nil ∧ found.1 = .dir ∧ sub.Mergeable found.2

section Paths

variable {src dst src₁ dst₁ sub dest : Dir} {name : Name} {kind : Kind} {path : List Name}

theorem at?_of_lookup_eq {dir dir' : Dir} (hlookup : dir.lookup name = dir'.lookup name) :
    dir.at? (name :: path) = dir'.at? (name :: path) := by
  unfold at?
  rw [hlookup]

theorem merged_of_lookup_eq (hsrc : src.lookup name = src₁.lookup name)
    (hdst : dst.lookup name = dst₁.lookup name) :
    merged src dst (name :: path) = merged src₁ dst₁ (name :: path) := by
  unfold merged
  rw [hsrc, hdst, at?_of_lookup_eq hsrc, at?_of_lookup_eq hdst]

theorem merged_of_not_mem (hsrc : src.lookup name = none) :
    merged src dst (name :: path) = dst.at? (name :: path) := by
  unfold merged
  rw [hsrc]

theorem merged_dir (hsrc : src.lookup name = some (.dir, sub)) (hdst : dst.lookup name = some (.dir, dest)) :
    merged src dst (name :: path) = merged sub dest path := by
  rw [merged, hsrc, hdst]

theorem at?_dir {dir : Dir} (hlookup : dir.lookup name = some (.dir, sub)) :
    dir.at? (name :: path) = sub.at? path := by
  rw [at?, hlookup]

theorem at?_single {dir : Dir} (hlookup : dir.lookup name = some (kind, sub)) :
    dir.at? [name] = some kind := by
  rw [at?, hlookup]
  cases kind <;> rfl

theorem merged_of_replaced (hsrc : src.lookup name = some (kind, sub))
    (hdst : kind = .dir → ∀ dest, dst.lookup name ≠ some (.dir, dest)) :
    merged src dst (name :: path) = src.at? (name :: path) := by
  unfold merged
  rw [hsrc]
  cases kind with
  | dir =>
      match hfound : dst.lookup name with
      | none => rfl
      | some (.dir, dest) => exact absurd hfound (hdst rfl dest)
      | some (.link _, _) => rfl
      | some (.other _, _) => rfl
  | link target => cases dst.lookup name <;> rfl
  | other content => cases dst.lookup name <;> rfl

theorem merged_put {rest : Dir} (hrest : rest.lookup name = none)
    (hdst : kind = .dir → dst.lookup name = none) (path : List Name) :
    merged rest (dst.put name kind sub) path = merged (entry name kind sub rest) dst path := by
  cases path with
  | nil => rfl
  | cons first path =>
      by_cases hfirst : name = first
      · subst hfirst
        have hnone : kind = .dir → ∀ dest, dst.lookup name ≠ some (.dir, dest) := by
          intro hkind dest
          rw [hdst hkind]
          exact nofun
        rw [merged_of_not_mem hrest, merged_of_replaced lookup_entry_self hnone]
        exact at?_of_lookup_eq ((lookup_put_self dst).trans lookup_entry_self.symm)
      · exact merged_of_lookup_eq (lookup_entry_of_ne hfirst).symm (lookup_put_of_ne hfirst dst)

theorem mergeable_put (hsrc : src.lookup name = none) :
    src.Mergeable (dst.put name kind sub) ↔ src.Mergeable dst := by
  induction src with
  | nil => rfl
  | entry name' kind' sub' rest _ ih =>
      have hne : name ≠ name' := by
        rintro rfl
        rw [lookup_entry_self] at hsrc
        cases hsrc
      rw [lookup_entry_of_ne hne.symm] at hsrc
      unfold Mergeable
      rw [lookup_put_of_ne hne, ih hsrc]

end Paths

theorem eq_put_of_renameTo {dir dir' sub : Dir} {name : Name} {kind : Kind}
    (hrename : dir.renameTo name kind sub = .ok dir') : dir' = dir.put name kind sub := by
  unfold renameTo at hrename
  split at hrename <;> [skip; (split_ifs at hrename); (split_ifs at hrename)] <;> cases hrename <;> rfl

theorem lookup_of_openAsDirAt {dir dest : Dir} {name : Name} {kind : Kind}
    (hopen : dir.openAsDirAt name = .ok (kind, dest)) : dir.lookup name = some (kind, dest) := by
  unfold openAsDirAt at hopen
  split at hopen
  · cases hopen
  · cases hopen
  · cases hopen
    assumption

theorem moveInto_entry {name : Name} {kind : Kind} {sub rest dst src' dst' : Dir}
    (hrun : (entry name kind sub rest).moveInto dst = .ok (src', dst')) :
    (∃ rest', ofUtf8? name = none ∧ src' = entry name kind sub rest') ∨
    (∃ destKind dest dest', ofUtf8? name ≠ none ∧ kind = .dir ∧ dst.lookup name = some (destKind, dest) ∧
      sub.moveInto dest = .ok (nil, dest') ∧ src' = rest ∧ dst' = dst.put name destKind dest') ∨
    (ofUtf8? name ≠ none ∧ (kind = .dir → dst.lookup name = none) ∧
      rest.moveInto (dst.put name kind sub) = .ok (src', dst')) := by
  unfold moveInto at hrun
  by_cases hutf : ofUtf8? name = none
  · left
    rw [if_pos hutf] at hrun
    cases hrest : rest.moveInto dst with
    | error e => rw [hrest] at hrun; cases hrun
    | ok left' =>
        rw [hrest] at hrun
        cases hrun
        exact ⟨_, hutf, rfl⟩
  · right
    rw [if_neg hutf] at hrun
    by_cases hboth : kind = .dir ∧ dst.containsPath name = true
    · left
      rw [if_pos hboth] at hrun
      cases hopen : dst.openAsDirAt name with
      | error e => rw [hopen] at hrun; cases hrun
      | ok found =>
          obtain ⟨destKind, dest⟩ := found
          rw [hopen] at hrun
          cases hsub : sub.moveInto dest with
          | error e => simp [hsub, bind, Except.bind] at hrun
          | ok moved =>
              obtain ⟨sub', dest'⟩ := moved
              by_cases hempty : sub' = nil
              · simp only [hsub, hempty, bind, Except.bind, removeDir, if_true] at hrun
                cases hrun
                exact ⟨_, _, _, hutf, hboth.1, lookup_of_openAsDirAt hopen, hempty ▸ hsub, rfl, rfl⟩
              · simp [hsub, hempty, bind, Except.bind, removeDir] at hrun
    · right
      rw [if_neg hboth] at hrun
      cases hrename : dst.renameTo name kind sub with
      | error e => rw [hrename] at hrun; cases hrun
      | ok dst₁ =>
          rw [hrename, eq_put_of_renameTo hrename] at hrun
          refine ⟨hutf, fun hkind => ?_, hrun⟩
          simpa [containsPath, hkind] using hboth

/-- A directory that both sides have: the merge is complete exactly if nothing comes after it, the
destination's is no link, and the merge of the two is complete. -/
theorem merges_put_iff {name : Name} {destKind : Kind} {sub rest dst dest dest' : Dir}
    (hfound : dst.lookup name = some (destKind, dest)) :
    Merges (entry name .dir sub rest) dst rest (dst.put name destKind dest') ↔
      rest = nil ∧ destKind = .dir ∧ Merges sub dest nil dest' := by
  constructor
  · rintro ⟨rfl, hpaths⟩
    have hdir : merged (entry name .dir sub nil) dst [name] = some .dir := by
      cases destKind with
      | dir => exact merged_dir lookup_entry_self hfound
      | link target | other content =>
          rw [merged_of_replaced lookup_entry_self (by simp [hfound])]
          exact at?_single lookup_entry_self
    have hkind : destKind = .dir := by
      have hsingle := hpaths [name]
      rw [hdir, at?_single (lookup_put_self dst)] at hsingle
      exact Option.some.inj hsingle
    subst hkind
    refine ⟨rfl, rfl, rfl, fun path => ?_⟩
    rw [← merged_dir lookup_entry_self hfound, ← hpaths (name :: path), at?_dir (lookup_put_self dst)]
  · rintro ⟨rfl, rfl, -, hpaths⟩
    refine ⟨rfl, fun path => ?_⟩
    cases path with
    | nil => rfl
    | cons first path =>
        by_cases hfirst : name = first
        · subst hfirst
          rw [at?_dir (lookup_put_self dst), hpaths path, merged_dir lookup_entry_self hfound]
        · rw [merged_of_not_mem (by rw [lookup_entry_of_ne hfirst, lookup_nil])]
          exact at?_of_lookup_eq (lookup_put_of_ne hfirst dst)

/-- **What a move leaves.** The source is empty and the destination is the merge exactly if all names are
UTF-8 and no entry is listed behind a directory that the destination has as well, which is no link. -/
theorem merges_moveInto_iff {src dst src' dst' : Dir} (hsrc : src.Distinct)
    (hrun : src.moveInto dst = .ok (src', dst')) :
    Merges src dst src' dst' ↔ src.Mergeable dst := by
  induction src generalizing dst src' dst' with
  | nil =>
      cases hrun
      refine ⟨fun _ => trivial, fun _ => ⟨rfl, fun path => ?_⟩⟩
      cases path with
      | nil => rfl
      | cons name path => exact (merged_of_not_mem lookup_nil).symm
  | entry name kind sub rest ihsub ihrest =>
      obtain ⟨hname, hsub, hrest⟩ := hsrc
      rcases moveInto_entry hrun with ⟨rest', hutf, rfl⟩ |
        ⟨destKind, dest, dest', hutf, rfl, hfound, hmoved, rfl, rfl⟩ | ⟨hutf, hnone, hmoved⟩
      · -- the entry is skipped and stays
        exact ⟨fun hmerges => absurd hmerges.1 nofun, fun hmergeable => absurd hutf hmergeable.1⟩
      · -- the entry is merged, and what comes behind it stays
        rw [merges_put_iff hfound, ihsub hsub hmoved]
        constructor
        · rintro ⟨rfl, rfl, hmergeable⟩
          refine ⟨hutf, trivial, fun found _ hlookup => ?_⟩
          cases hfound.symm.trans hlookup
          exact ⟨rfl, rfl, hmergeable⟩
        · rintro ⟨-, -, hlast⟩
          exact hlast _ rfl hfound
      · -- the entry is renamed, and the loop goes on
        have hmerges := ihrest hrest hmoved
        rw [Merges] at hmerges ⊢
        simp only [merged_put hname hnone] at hmerges
        rw [hmerges, mergeable_put hname]
        refine ⟨fun hmergeable => ⟨hutf, hmergeable, fun found hkind hlookup => ?_⟩, fun h => h.2.1⟩
        rw [hnone hkind] at hlookup
        cases hlookup

def sampleFile (rest : Dir) : Dir := entry (Text.utf8Bytes "b") (.other []) nil rest

def sampleDir (rest : Dir) : Dir := entry (Text.utf8Bytes "a") .dir nil rest

theorem ofUtf8?_name (name : String) : ofUtf8? (Text.utf8Bytes name) ≠ none := by
  rw [ofUtf8?_utf8Bytes]
  exact nofun

theorem moveInto_sampleDir (rest rest' : Dir) :
    (sampleDir rest).moveInto (sampleDir rest') = .ok (rest, sampleDir rest') := by
  have hboth : Kind.dir = .dir ∧ (sampleDir rest').containsPath (Text.utf8Bytes "a") = true := by
    rw [containsPath, sampleDir, lookup_entry_self]
    exact ⟨rfl, rfl⟩
  rw [sampleDir, moveInto, if_neg (ofUtf8?_name "a"), if_pos hboth, openAsDirAt]
  rfl

theorem moveInto_sampleFile (rest : Dir) :
    (sampleFile rest).moveInto (sampleDir nil) = rest.moveInto (sampleDir (sampleFile nil)) := by
  rw [sampleFile, moveInto, if_neg (ofUtf8?_name "b"), if_neg (by rintro ⟨⟨⟩, -⟩)]
  rfl

theorem merges_sample :
    (sampleFile (sampleDir nil)).moveInto (sampleDir nil) = .ok (nil, sampleDir (sampleFile nil)) ∧
    Merges (sampleFile (sampleDir nil)) (sampleDir nil) nil (sampleDir (sampleFile nil)) := by
  have hdistinct : (sampleFile (sampleDir nil)).Distinct := ⟨by decide, trivial, rfl, trivial, trivial⟩
  have hrun := (moveInto_sampleFile (sampleDir nil)).trans (moveInto_sampleDir nil _)
  refine ⟨hrun, (merges_moveInto_iff hdistinct hrun).2 ?_⟩
  refine ⟨ofUtf8?_name "b", ⟨ofUtf8?_name "a", trivial, fun found _ hfound => ?_⟩, nofun⟩
  rw [sampleDir, lookup_entry_self] at hfound
  cases hfound
  exact ⟨rfl, rfl, trivial⟩

/-- A file behind a directory that the destination has as well stays, and no error is returned. -/
theorem not_merges_sample :
    (sampleDir (sampleFile nil)).Distinct ∧
    (sampleDir (sampleFile nil)).moveInto (sampleDir nil) = .ok (sampleFile nil, sampleDir nil) ∧
    ¬ Merges (sampleDir (sampleFile nil)) (sampleDir nil) (sampleFile nil) (sampleDir nil) :=
  ⟨⟨by decide, trivial, rfl, trivial, trivial⟩, moveInto_sampleDir _ _, fun hmerges => nomatch hmerges.1⟩

end Dir

end MagiskNative.Base
