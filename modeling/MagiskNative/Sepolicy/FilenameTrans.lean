import MagiskNative.Lib.Bytes
import MagiskNative.Lib.Text
import MagiskNative.Sepolicy.Policy
import Mathlib.Data.List.AList

/-!
# Filename transitions

`add_filename_trans` finds the chain of data for a target, a class and a file name and adds a source to
it. The table is searched through `hashtab_find`, which takes its key as a text: what the table sees in
place of the key are the bytes of the key up to the first zero byte.
-/

namespace MagiskNative.Sepolicy

open Bytes Text

structure FilenameTransKey where
  ttype : UInt32
  tclass : UInt32
  name : List UInt8
  deriving DecidableEq, Repr

structure FilenameTransDatum where
  stypes : Finset UInt32
  otype : UInt32
  deriving DecidableEq

structure FilenameTransDb where
  policy : PolicyDb
  filenameTrans : AList fun _ : FilenameTransKey => List FilenameTransDatum
  filenameTransCount : UInt32

/-- Where `add_filename_trans` has its key: the address of the name in it, and what is behind it. -/
structure Stack where
  pointer : List UInt8
  nonnull : ∃ b ∈ pointer, b ≠ 0
  behind : List UInt8

def pick (stype : UInt32) (chain : List FilenameTransDatum) : Option UInt32 :=
  chain.findSome? fun d => if stype ∈ d.stypes then some d.otype else none

namespace FilenameTransDb

def chain (db : FilenameTransDb) (key : FilenameTransKey) : List FilenameTransDatum :=
  (db.filenameTrans.lookup key).getD []

def lookup (db : FilenameTransDb) (stype : UInt32) (key : FilenameTransKey) : Option UInt32 :=
  pick stype (db.chain key)

end FilenameTransDb

/-- A `Str` from a pointer: the bytes up to the first zero. The process ends if they are not UTF-8. -/
def strOf (memory : List UInt8) : Option (List UInt8) :=
  let text := memory.takeWhile (· ≠ 0)
  if (ofUtf8? text).isSome then some text else none

/-- The buffer that `hashtab_find` hands on, as far as a key of so many bytes reaches. -/
def searchedKey (size : Nat) (memory : List UInt8) : Option (List UInt8) :=
  (strOf memory).map fun text => (text.take 255 ++ List.replicate 256 0).take size

def keyBytes (stack : Stack) (ttype tclass : UInt32) : List UInt8 :=
  leBytes 4 ttype.toNat ++ leBytes 4 tclass.toNat ++ stack.pointer

/-- The search in the table follows the pointer to the name; no other address can be followed. -/
def findTrans (stack : Stack) (db : FilenameTransDb) (key : FilenameTransKey) :
    Option (List FilenameTransDatum) := do
  let bytes := keyBytes stack key.ttype key.tclass
  let seen ← searchedKey bytes.length (bytes ++ stack.behind)
  if seen.drop 8 = stack.pointer then
    return db.chain
      { ttype := UInt32.ofNat (ofLe (seen.take 4)), tclass := UInt32.ofNat (ofLe (slice seen 4 4)),
        name := key.name }
  else none

def walk (src otype : UInt32) : List FilenameTransDatum → List FilenameTransDatum × Bool
  | [] => ([⟨{src}, otype⟩], true)
  | d :: rest =>
      -- overwrite what is there for the source
      if src ∈ d.stypes then ({ d with otype } :: rest, false)
      else if d.otype = otype then ({ d with stypes := insert src d.stypes } :: rest, true)
      else
        let (rest, added) := walk src otype rest
        (d :: rest, added)

/-- `none` if the process does not come back. -/
def addFilenameTrans (stack : Stack) (db : FilenameTransDb) (s t c d o : String) :
    Option (FilenameTransDb × Bool) :=
  match hashtabFind db.policy.types s with
  | none => some (db, false)
  | some src =>
      match hashtabFind db.policy.types t with
      | none => some (db, false)
      | some tgt =>
          match hashtabFind db.policy.classes c with
          | none => some (db, false)
          | some cls =>
              match hashtabFind db.policy.types d with
              | none => some (db, false)
              | some dfl => do
                  let key := { ttype := tgt.value, tclass := cls.value, name := copyStr o }
                  let (chain, added) := walk src.value dfl.value (← findTrans stack db key)
                  let db := { db with filenameTrans := db.filenameTrans.insert key chain }
                  if added then
                    return ({ db with filenameTransCount := db.filenameTransCount + 1 }, true)
                  else return (db, true)

theorem pick_cons (stype : UInt32) (d : FilenameTransDatum) (rest : List FilenameTransDatum) :
    pick stype (d :: rest) = if stype ∈ d.stypes then some d.otype else pick stype rest := by
  unfold pick
  rw [List.findSome?_cons]
  split <;> simp_all

theorem pick_walk_self (src otype : UInt32) (chain : List FilenameTransDatum) :
    pick src (walk src otype chain).1 = some otype := by
  induction chain with
  | nil => simp [walk, pick_cons]
  | cons d rest ih =>
      rw [walk]
      split
      · rename_i hsrc
        rw [pick_cons, if_pos hsrc]
      · rename_i hsrc
        split
        · rename_i hotype
          rw [pick_cons, if_pos (Finset.mem_insert_self src d.stypes), hotype]
        · rw [pick_cons, if_neg hsrc]
          exact ih

/-- The datum that the walk overwrites has the right result already, or it has no source besides `src`
that does not come `earlier` in the chain. -/
def Unshared (src otype : UInt32) (earlier : Finset UInt32) : List FilenameTransDatum → Prop
  | [] => True
  | d :: rest =>
      if src ∈ d.stypes then d.otype = otype ∨ d.stypes ⊆ insert src earlier
      else if d.otype = otype then True
      else Unshared src otype (earlier ∪ d.stypes) rest

theorem pick_walk_ne_iff (src otype : UInt32) (earlier : Finset UInt32) (chain : List FilenameTransDatum) :
    (∀ stype ≠ src, stype ∉ earlier → pick stype (walk src otype chain).1 = pick stype chain) ↔
      Unshared src otype earlier chain := by
  induction chain generalizing earlier with
  | nil =>
      refine iff_of_true (fun stype hne _ => ?_) trivial
      simp [walk, pick_cons, hne]
  | cons d rest ih =>
      rw [walk, Unshared]
      by_cases hsrc : src ∈ d.stypes
      · simp only [if_pos hsrc, pick_cons]
        constructor
        · intro hsame
          by_cases hotype : d.otype = otype
          · exact .inl hotype
          · refine .inr fun stype hstype => ?_
            by_contra hnew
            rw [Finset.mem_insert, not_or] at hnew
            have := hsame stype hnew.1 hnew.2
            rw [if_pos hstype, if_pos hstype, Option.some.injEq] at this
            exact hotype this.symm
        · rintro (rfl | hsub) stype hne hearlier
          · rfl
          · have hnot : stype ∉ d.stypes := fun h => by
              rcases Finset.mem_insert.1 (hsub h) with h | h
              · exact hne h
              · exact hearlier h
            rw [if_neg hnot, if_neg hnot]
      · by_cases hotype : d.otype = otype
        · refine iff_of_true (fun stype hne _ => ?_) (by rw [if_neg hsrc, if_pos hotype]; trivial)
          simp [hsrc, hotype, pick_cons, Finset.mem_insert, hne]
        · simp only [if_neg hsrc, if_neg hotype, ← ih, pick_cons, Finset.mem_union, not_or]
          refine forall₂_congr fun stype _ => ?_
          by_cases hstype : stype ∈ d.stypes <;> simp [hstype]

theorem length_keyBytes (stack : Stack) (ttype tclass : UInt32) :
    (keyBytes stack ttype tclass).length = 8 + stack.pointer.length := by
  rw [keyBytes, List.length_append, List.length_append, length_leBytes, length_leBytes]

theorem drop_keyBytes (stack : Stack) (ttype tclass : UInt32) :
    (keyBytes stack ttype tclass).drop 8 = stack.pointer := by
  rw [keyBytes, List.drop_left']
  simp

theorem searchedKey_eq_some {size : Nat} {memory seen : List UInt8}
    (hseen : searchedKey size memory = some seen) :
    ∃ n ≤ (memory.takeWhile (· ≠ 0)).length, seen = (memory.take n ++ List.replicate 256 0).take size := by
  obtain ⟨text, htext, rfl⟩ := Option.map_eq_some_iff.1 hseen
  rw [strOf] at htext
  split at htext
  · cases htext
    have htake := List.prefix_iff_eq_take.1 ( List.takeWhile_prefix (l := memory) (· ≠ 0))
    refine ⟨min 255 (memory.takeWhile (· ≠ 0)).length, Nat.min_le_right _ _, ?_⟩
    rw [← List.take_take, ← htake]
  · cases htext

theorem drop_ne_pointer (stack : Stack) {n size : Nat} (memory : List UInt8) (hn : n ≤ 8) :
    ((memory.take n ++ List.replicate 256 0).take size).drop 8 ≠ stack.pointer := by
  intro hpointer
  obtain ⟨b, hb, hne⟩ := stack.nonnull
  have hnil : (memory.take n).drop 8 = [] :=
    List.drop_of_length_le ((List.length_take_le _ _).trans hn)
  rw [← hpointer, List.drop_take, List.drop_append, hnil, List.nil_append] at hb
  exact hne (List.eq_of_mem_replicate (List.mem_of_mem_drop (List.mem_of_mem_take hb)))

theorem searchedKey_of_pointer {stack : Stack} {ttype tclass : UInt32} {seen : List UInt8}
    (hseen : searchedKey (keyBytes stack ttype tclass).length (keyBytes stack ttype tclass ++ stack.behind)
      = some seen) (hpointer : seen.drop 8 = stack.pointer) : seen = keyBytes stack ttype tclass := by
  obtain ⟨n, -, rfl⟩ := searchedKey_eq_some hseen
  have hlength := length_keyBytes stack ttype tclass
  have hlt : 8 < n := by
    by_contra hle
    exact drop_ne_pointer stack _ (by omega) hpointer
  set seen := (List.take n (keyBytes stack ttype tclass ++ stack.behind) ++ List.replicate 256 0).take
    (keyBytes stack ttype tclass).length with hdef
  have hhead : seen.take 8 = (keyBytes stack ttype tclass).take 8 := by
    rw [hdef, List.take_take, Nat.min_eq_left (by omega), List.take_append_of_le_length, List.take_take,
      Nat.min_eq_left (by omega), List.take_append_of_le_length (by omega)]
    rw [List.length_take, List.length_append]
    omega
  calc
    seen = seen.take 8 ++ seen.drop 8 := (List.take_append_drop 8 seen).symm
    _ = (keyBytes stack ttype tclass).take 8 ++ (keyBytes stack ttype tclass).drop 8 := by
      rw [hhead, hpointer, drop_keyBytes]
    _ = keyBytes stack ttype tclass := List.take_append_drop 8 _

/-- The table sees the key as it is. -/
def Survives (stack : Stack) (ttype tclass : UInt32) : Prop :=
  searchedKey (keyBytes stack ttype tclass).length (keyBytes stack ttype tclass ++ stack.behind)
    = some (keyBytes stack ttype tclass)

theorem not_survives_of_lt (stack : Stack) {ttype : UInt32} (hlt : ttype.toNat < 2 ^ 24) (tclass : UInt32) :
    ¬ Survives stack ttype tclass := by
  intro hsurvives
  obtain ⟨n, hn, hseen⟩ := searchedKey_eq_some hsurvives
  have hzero : UInt8.ofNat (ttype.toNat / 256 / 256 / 256) = 0 := by
    rw [show ttype.toNat / 256 / 256 / 256 = 0 by omega]
    rfl
  have hshort : ((keyBytes stack ttype tclass ++ stack.behind).takeWhile (· ≠ 0)).length ≤ 3 := by
    simp only [keyBytes, leBytes, hzero, List.cons_append, List.takeWhile_cons]
    grind
  have hpointer := drop_keyBytes stack ttype tclass
  rw [hseen] at hpointer
  exact drop_ne_pointer stack _ (by omega : n ≤ 8) hpointer

theorem findTrans_of_survives {stack : Stack} (db : FilenameTransDb) (key : FilenameTransKey)
    (hsurvives : Survives stack key.ttype key.tclass) :
    findTrans stack db key = some (db.chain key) := by
  have httype : UInt32.ofNat (ofLe ((keyBytes stack key.ttype key.tclass).take 4)) = key.ttype := by
    rw [keyBytes, List.append_assoc, List.take_left' (length_leBytes 4 _),
      ofLe_leBytes_of_lt key.ttype.toNat_lt, UInt32.ofNat_toNat]
  have htclass : UInt32.ofNat (ofLe (slice (keyBytes stack key.ttype key.tclass) 4 4)) = key.tclass := by
    rw [keyBytes, slice_append_of_length (length_leBytes 4 _) (length_leBytes 4 _),
      ofLe_leBytes_of_lt key.tclass.toNat_lt, UInt32.ofNat_toNat]
  rw [findTrans, hsurvives, Option.bind_eq_bind, Option.bind_some, if_pos (drop_keyBytes stack _ _), httype,
    htclass]
  rfl

theorem findTrans_of_not_survives {stack : Stack} (db : FilenameTransDb) (key : FilenameTransKey)
    (hlost : ¬ Survives stack key.ttype key.tclass) :
    findTrans stack db key = none := by
  rw [findTrans, Option.bind_eq_bind, Option.bind_eq_none_iff]
  intro seen hseen
  refine if_neg fun hpointer => hlost ?_
  rw [Survives, hseen, searchedKey_of_pointer hseen hpointer]

/-- The names of a transition and what they stand for. -/
structure TransNames (db : FilenameTransDb) (s t c d : String) (src tgt dfl : TypeDatum)
    (cls : ClassDatum) : Prop where
  source : hashtabFind db.policy.types s = some src
  target : hashtabFind db.policy.types t = some tgt
  cls : hashtabFind db.policy.classes c = some cls
  default : hashtabFind db.policy.types d = some dfl

def SetsOne (stack : Stack) (db : FilenameTransDb) (s t c d o : String) (src tgt dfl : TypeDatum)
    (cls : ClassDatum) : Prop :=
  ∃ db', addFilenameTrans stack db s t c d o = some (db', true) ∧
    db'.lookup src.value ⟨tgt.value, cls.value, utf8Bytes o⟩ = some dfl.value ∧
    ∀ stype key, (stype, key) ≠ (src.value, ⟨tgt.value, cls.value, utf8Bytes o⟩) →
      db'.lookup stype key = db.lookup stype key

section

variable {stack : Stack} {db : FilenameTransDb} {s t c d : String} {src tgt dfl : TypeDatum}
  {cls : ClassDatum}

theorem addFilenameTrans_of_not_survives (hnames : TransNames db s t c d src tgt dfl cls)
    (hlost : ¬ Survives stack tgt.value cls.value) (o : String) :
    addFilenameTrans stack db s t c d o = none := by
  have hfind := findTrans_of_not_survives db ⟨tgt.value, cls.value, copyStr o⟩ hlost
  simp only [addFilenameTrans, hnames.source, hnames.target, hnames.cls, hnames.default, hfind]
  rfl

theorem addFilenameTrans_of_lt (hnames : TransNames db s t c d src tgt dfl cls)
    (hlt : tgt.value.toNat < 2 ^ 24) (o : String) : addFilenameTrans stack db s t c d o = none :=
  addFilenameTrans_of_not_survives hnames (not_survives_of_lt stack hlt _) o

theorem addFilenameTrans_of_survives (hnames : TransNames db s t c d src tgt dfl cls)
    (hsurvives : Survives stack tgt.value cls.value) (o : String) :
    ∃ db', addFilenameTrans stack db s t c d o = some (db', true) ∧ ∀ stype key, db'.lookup stype key
      = if key = ⟨tgt.value, cls.value, copyStr o⟩ then pick stype (walk src.value dfl.value (db.chain key)).1
        else db.lookup stype key := by
  set key : FilenameTransKey := ⟨tgt.value, cls.value, copyStr o⟩ with hkey
  have hfind : findTrans stack db key = some (db.chain key) := findTrans_of_survives db key hsurvives
  have hinsert : ∀ count stype key', FilenameTransDb.lookup { db with
      filenameTrans := db.filenameTrans.insert key (walk src.value dfl.value (db.chain key)).1
      filenameTransCount := count } stype key'
        = if key' = key then pick stype (walk src.value dfl.value (db.chain key')).1
          else db.lookup stype key' := by
    intro count stype key'
    by_cases hsame : key' = key
    · subst hsame
      rw [if_pos rfl, FilenameTransDb.lookup, FilenameTransDb.chain, AList.lookup_insert, Option.getD_some]
    · rw [if_neg hsame, FilenameTransDb.lookup, FilenameTransDb.chain, AList.lookup_insert_ne hsame]
      rfl
  simp only [addFilenameTrans, hnames.source, hnames.target, hnames.cls, hnames.default, ← hkey, hfind,
    Option.bind_eq_bind, Option.bind_some]
  split
  · exact ⟨_, rfl, hinsert _⟩
  · exact ⟨_, rfl, hinsert _⟩

end

/-- **One transition is set.** The call sets the transition that it names and no other exactly if the table
sees the key as it is, the datum that is overwritten has no other sources, and the name is short enough
(or what the names stand for is there already). -/
theorem setsOne_iff {stack : Stack} {db : FilenameTransDb} {s t c d : String} {src tgt dfl : TypeDatum}
    {cls : ClassDatum} (hnames : TransNames db s t c d src tgt dfl cls) (o : String) :
    SetsOne stack db s t c d o src tgt dfl cls ↔
      Survives stack tgt.value cls.value ∧
      Unshared src.value dfl.value ∅ (db.chain ⟨tgt.value, cls.value, copyStr o⟩) ∧
      (copyStr o = utf8Bytes o ∨
        db.lookup src.value ⟨tgt.value, cls.value, copyStr o⟩ = some dfl.value ∧
        db.lookup src.value ⟨tgt.value, cls.value, utf8Bytes o⟩ = some dfl.value) := by
  by_cases hsurvives : Survives stack tgt.value cls.value
  swap
  · rw [SetsOne, addFilenameTrans_of_not_survives hnames hsurvives]
    simp [hsurvives]
  obtain ⟨db', hadd, hlookup⟩ := addFilenameTrans_of_survives hnames hsurvives o
  have hothers := pick_walk_ne_iff src.value dfl.value ∅ (db.chain ⟨tgt.value, cls.value, copyStr o⟩)
  have hself : db'.lookup src.value ⟨tgt.value, cls.value, copyStr o⟩ = some dfl.value := by
    rw [hlookup, if_pos rfl]
    exact pick_walk_self _ _ _
  simp only [Finset.notMem_empty, not_false_eq_true, true_implies] at hothers
  rw [← hothers, SetsOne, hadd]
  simp only [Option.some.injEq, Prod.mk.injEq, and_true, exists_eq_left', hsurvives, true_and]
  constructor
  · rintro ⟨hset, hframe⟩
    refine ⟨fun stype hne => ?_, ?_⟩
    · have hsame := hframe stype ⟨tgt.value, cls.value, copyStr o⟩ fun h => hne (congrArg Prod.fst h)
      rwa [hlookup, if_pos rfl] at hsame
    · by_cases hname : copyStr o = utf8Bytes o
      · exact .inl hname
      · refine .inr ⟨?_, ?_⟩
        · rw [← hself, hframe src.value _ (by simp [hname])]
        · rwa [hlookup, if_neg (by simp [Ne.symm hname])] at hset
  · rintro ⟨hsame, hname⟩
    have hkey : ∀ stype key, stype ≠ src.value ∨ key ≠ ⟨tgt.value, cls.value, copyStr o⟩ →
        db'.lookup stype key = db.lookup stype key := by
      intro stype key hne
      rw [hlookup]
      split
      · rename_i heq
        subst heq
        exact hsame stype (hne.resolve_right fun h => h rfl)
      · rfl
    rcases hname with hname | ⟨hcut, hfull⟩
    · rw [← hname]
      refine ⟨hself, fun stype key hne => hkey stype key ?_⟩
      by_contra hboth
      rw [not_or, not_not, not_not] at hboth
      exact hne (by rw [hboth.1, hboth.2])
    · have hall : ∀ stype key, db'.lookup stype key = db.lookup stype key := by
        intro stype key
        by_cases hne : stype ≠ src.value ∨ key ≠ ⟨tgt.value, cls.value, copyStr o⟩
        · exact hkey stype key hne
        · rw [not_or, not_not, not_not] at hne
          rw [hne.1, hne.2, hself, hcut]
      exact ⟨by rw [hall, hfull], fun stype key _ => hall stype key⟩

/-- A policy whose type and class values have no zero byte, with two other transitions for the key, and an
address that has no zero byte before its end. -/
def wideDb : FilenameTransDb where
  policy :=
    { PolicyDb.samplePolicy 30 with
      types := [(copyStr "source", ⟨1, .type⟩), (copyStr "target", ⟨0x01010101, .type⟩)]
      classes := [(copyStr "class", ⟨0x01010101⟩)] }
  filenameTrans := AList.singleton ⟨0x01010101, 0x01010101, utf8Bytes "name"⟩ [⟨{1}, 7⟩, ⟨{2, 3}, 5⟩]
  filenameTransCount := 2

def lowStack : Stack := ⟨[0x10, 0x20, 0x30, 0x40, 0, 0, 0, 0], ⟨0x10, by simp⟩, []⟩

theorem transNames_wideDb :
    TransNames wideDb "source" "target" "class" "target" ⟨1, .type⟩ ⟨0x01010101, .type⟩
      ⟨0x01010101, .type⟩ ⟨0x01010101⟩ :=
  ⟨by rfl, by rfl, by rfl, by rfl⟩

theorem setsOne_wideDb :
    SetsOne lowStack wideDb "source" "target" "class" "target" "name" ⟨1, .type⟩ ⟨0x01010101, .type⟩
      ⟨0x01010101, .type⟩ ⟨0x01010101⟩ :=
  (setsOne_iff transNames_wideDb "name").2 ⟨by rfl, .inr (by decide), .inl (by rfl)⟩

def sampleDb : FilenameTransDb := ⟨PolicyDb.samplePolicy 30, ∅, 0⟩

theorem not_setsOne_sampleDb :
    TransNames sampleDb "source" "target" "class" "target" ⟨1, .type⟩ ⟨2, .type⟩ ⟨2, .type⟩ ⟨1⟩ ∧
      ¬ SetsOne lowStack sampleDb "source" "target" "class" "target" "name" ⟨1, .type⟩ ⟨2, .type⟩
        ⟨2, .type⟩ ⟨1⟩ := by
  have hnames : TransNames sampleDb "source" "target" "class" "target" ⟨1, .type⟩ ⟨2, .type⟩ ⟨2, .type⟩
      ⟨1⟩ := ⟨by rfl, by rfl, by rfl, by rfl⟩
  refine ⟨hnames, fun ⟨db', hadd, _⟩ => ?_⟩
  rw [addFilenameTrans_of_lt hnames (by decide)] at hadd
  cases hadd

end MagiskNative.Sepolicy
