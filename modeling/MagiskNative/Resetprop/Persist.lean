import MagiskNative.Lib.Keyed
import MagiskNative.Lib.Machine
import MagiskNative.Lib.Text
import MagiskNative.Lib.Wire
import Mathlib.Data.List.Sort
import Mathlib.Order.WithBot

/-!
# The store of persistent properties

The properties are records in one protobuf file. Every call reads and sorts the whole file, and a change
writes all of it again.
-/

namespace MagiskNative.Resetprop

open Keyed

structure PersistentPropertyRecord where
  name : Option String
  value : Option String
  deriving DecidableEq, Repr

namespace PersistentPropertyRecord

def rank (r : PersistentPropertyRecord) : WithBot String := r.name

def Sorted (props : List PersistentPropertyRecord) : Prop := props.Pairwise fun a b => a.rank ≤ b.rank

end PersistentPropertyRecord

open PersistentPropertyRecord

/-- What the store takes from its libraries: the codec of the file, an unstable sort by names, and binary
search for a name, which may find any of several records. -/
structure PropLib where
  encode : List PersistentPropertyRecord → List UInt8
  decode : List UInt8 → Option (List PersistentPropertyRecord)
  sort : List PersistentPropertyRecord → List PersistentPropertyRecord
  search : List PersistentPropertyRecord → String → Except Nat Nat
  decode_encode : ∀ props, decode (encode props) = some props
  encode_nil : encode [] = []
  sort_perm : ∀ props, (sort props).Perm props
  sorted_sort : ∀ props, Sorted (sort props)
  search_ok : ∀ {props name i}, Sorted props → search props name = .ok i →
    ∃ r, props[i]? = some r ∧ r.name = some name
  search_error : ∀ {props name i}, Sorted props → search props name = .error i →
    i ≤ props.length ∧ ∀ r ∈ props, r.name ≠ some name

variable (lib : PropLib)

def protoReadProps (file : List UInt8) : Option (List PersistentPropertyRecord) :=
  if file = [] then none else (lib.decode file).map lib.sort

def protoWriteProps (props : List PersistentPropertyRecord) : List UInt8 := lib.encode props

def PropLib.find (props : List PersistentPropertyRecord) (name : String) :
    Option PersistentPropertyRecord :=
  match lib.search props name with
  | .ok i => props[i]?
  | .error _ => none

def persistGetProp (file : List UInt8) (key : String) : Option String := do
  let props ← protoReadProps lib file
  match ← lib.find props key with
  | ⟨some _, some v⟩ => return v
  | _ => none

def persistDeleteProp (file : List UInt8) (key : String) : Option (List UInt8) := do
  let props ← protoReadProps lib file
  match lib.search props key with
  | .ok i => return protoWriteProps lib (props.eraseIdx i)
  | .error _ => none

def persistSetProp (file : List UInt8) (key val : String) : Option (List UInt8) := do
  let props ← protoReadProps lib file
  match lib.search props key with
  | .ok i => return protoWriteProps lib (props.modify i fun r => { r with value := some val })
  | .error i => return protoWriteProps lib (props.insertIdx i ⟨some key, some val⟩)

inductive Call where
  | get (key : String)
  | set (key val : String)
  | delete (key : String)
  deriving DecidableEq, Repr

inductive Reply where
  | value (val : Option String)
  | done (ok : Bool)
  deriving DecidableEq, Repr

def call (file : List UInt8) : Call → List UInt8 × Reply
  | .get key => (file, .value (persistGetProp lib file key))
  | .set key val =>
      match persistSetProp lib file key val with
      | some file => (file, .done true)
      | none => (file, .done false)
  | .delete key =>
      match persistDeleteProp lib file key with
      | some file => (file, .done true)
      | none => (file, .done false)

/-- What the calls mean for a map from names to values, where a value may be missing. -/
def specCall (map : String → Option (Option String)) : Call → (String → Option (Option String)) × Reply
  | .get key => (map, .value (map key).join)
  | .set key val => (Function.update map key (some (some val)), .done true)
  | .delete key => (Function.update map key none, .done (map key).isSome)

def mapOf (file : List UInt8) (key : String) : Option (Option String) :=
  (lib.decode file).bind fun props => (Keyed.find (·.name) props key).map (·.value)

def WellFormed (file : List UInt8) : Prop :=
  ∃ props, lib.decode file = some props ∧ Keyed.Distinct (·.name) props

def Behaves (file : List UInt8) (c : Call) : Prop :=
  (mapOf lib (call lib file c).1, (call lib file c).2) = specCall (mapOf lib file) c ∧
    WellFormed lib (call lib file c).1

variable {lib} {file : List UInt8} {props : List PersistentPropertyRecord} {key : String}

theorem decode_nil : lib.decode [] = some [] := by
  rw [← lib.encode_nil, lib.decode_encode]

theorem mapOf_encode (props : List PersistentPropertyRecord) (key : String) :
    mapOf lib (lib.encode props) key = (Keyed.find (·.name) props key).map (·.value) := by
  rw [mapOf, lib.decode_encode, Option.bind_some]

theorem WellFormed.read (hfile : WellFormed lib file) (hne : file ≠ []) :
    ∃ props, protoReadProps lib file = some props ∧ Sorted props ∧ Keyed.Distinct (·.name) props ∧
      ∀ key, mapOf lib file key = (Keyed.find (·.name) props key).map (·.value) := by
  obtain ⟨props, hdecode, hdistinct⟩ := hfile
  have hperm := (lib.sort_perm props).symm
  refine ⟨lib.sort props, ?_, lib.sorted_sort props, hdistinct.perm hperm, fun key => ?_⟩
  · rw [protoReadProps, if_neg hne, hdecode, Option.map_some]
  · rw [mapOf, hdecode, Option.bind_some, find_perm hdistinct hperm]

variable (lib) in
theorem search_cases (hsorted : Sorted props) (hdistinct : Keyed.Distinct (·.name) props) (key : String) :
    (∃ before r after, lib.search props key = .ok before.length ∧ props = before ++ r :: after ∧
      r.name = some key ∧ Keyed.find (·.name) (before ++ after) key = none ∧
      Keyed.Distinct (·.name) (before ++ after)) ∨
    ∃ before after, lib.search props key = .error before.length ∧ props = before ++ after ∧
      Keyed.find (·.name) props key = none := by
  cases hsearch : lib.search props key with
  | ok i =>
      obtain ⟨r, hr, hname⟩ := lib.search_ok hsorted hsearch
      obtain ⟨hi, rfl⟩ := List.getElem?_eq_some_iff.1 hr
      have hsplit : props = props.take i ++ props[i] :: props.drop (i + 1) := by simp
      rw [hsplit, distinct_middle hname] at hdistinct
      refine .inl ⟨props.take i, props[i], props.drop (i + 1), ?_, hsplit, hname, hdistinct⟩
      rw [List.length_take_of_le hi.le]
  | error i =>
      obtain ⟨hi, habsent⟩ := lib.search_error hsorted hsearch
      refine .inr ⟨props.take i, props.drop i, ?_, (List.take_append_drop i props).symm,
        Keyed.find_eq_none.2 habsent⟩
      rw [List.length_take_of_le hi]

theorem mapOf_nil (key : String) : mapOf lib [] key = none := by
  rw [mapOf, decode_nil]
  rfl

theorem find_eq_keyed (hsorted : Sorted props) (hdistinct : Keyed.Distinct (·.name) props) (key : String) :
    lib.find props key = Keyed.find (·.name) props key := by
  rw [PropLib.find]
  rcases search_cases lib hsorted hdistinct key with
    ⟨before, r, after, hsearch, rfl, hname, hothers, -⟩ | ⟨before, after, hsearch, rfl, hnone⟩
  · rw [hsearch, find_middle hname hothers, if_pos rfl]
    simp
  · rw [hsearch, hnone]

theorem persistGetProp_eq (hfile : WellFormed lib file) (key : String) :
    persistGetProp lib file key = (mapOf lib file key).join := by
  by_cases hne : file = []
  · subst hne
    rw [mapOf_nil, persistGetProp, protoReadProps, if_pos rfl]
    rfl
  · obtain ⟨props, hread, hsorted, hdistinct, hmap⟩ := hfile.read hne
    rw [persistGetProp, hread, Option.bind_eq_bind, Option.bind_some, find_eq_keyed hsorted hdistinct, hmap]
    cases hfind : Keyed.find (·.name) props key with
    | none => rfl
    | some r =>
        obtain ⟨name, value⟩ := r
        obtain rfl : name = some key := ((find_eq_some hdistinct).1 hfind).2
        cases value <;> rfl

theorem wrote {before after : List PersistentPropertyRecord} (val : String)
    (hothers : Keyed.find (·.name) (before ++ after) key = none)
    (hdistinct : Keyed.Distinct (·.name) (before ++ after))
    (hmap : ∀ k ≠ key, mapOf lib file k = (Keyed.find (·.name) (before ++ after) k).map (·.value)) :
    mapOf lib (lib.encode (before ++ ⟨some key, some val⟩ :: after))
        = Function.update (mapOf lib file) key (some (some val)) ∧
      WellFormed lib (lib.encode (before ++ ⟨some key, some val⟩ :: after)) := by
  have hname : (PersistentPropertyRecord.mk (some key) (some val)).name = some key := rfl
  refine ⟨?_, _, lib.decode_encode _, (distinct_middle hname).2 ⟨hothers, hdistinct⟩⟩
  funext k
  rw [mapOf_encode, find_middle hname hothers]
  by_cases hk : k = key
  · subst hk
    simp
  · rw [if_neg hk, Function.update_of_ne hk, hmap k hk]

theorem insertIdx_length {α : Type} (xs ys : List α) (y : α) :
    (xs ++ ys).insertIdx xs.length y = xs ++ y :: ys := by
  induction xs with
  | nil => rfl
  | cons x xs ih => simpa using ih

theorem behaves_set (hfile : WellFormed lib file) (hne : file ≠ []) (key val : String) :
    Behaves lib file (.set key val) := by
  obtain ⟨props, hread, hsorted, hdistinct, hmap⟩ := hfile.read hne
  simp only [Behaves, call, specCall, persistSetProp, hread, Option.bind_eq_bind, Option.bind_some,
    protoWriteProps]
  rcases search_cases lib hsorted hdistinct key with
    ⟨before, r, after, hsearch, rfl, hname, hothers, hrest⟩ | ⟨before, after, hsearch, rfl, hnone⟩
  · have hwrote := wrote val hothers hrest fun k hk => show mapOf lib file k = _ by
      rw [hmap, find_middle hname hothers, if_neg hk]
    obtain ⟨name, value⟩ := r
    obtain rfl : name = some key := hname
    simpa [hsearch, List.modify_eq_take_cons_drop] using hwrote
  · have hwrote := wrote val hnone hdistinct fun k _ => hmap k
    simpa [hsearch, insertIdx_length] using hwrote

theorem behaves_delete (hfile : WellFormed lib file) (key : String) : Behaves lib file (.delete key) := by
  have habsent : mapOf lib file key = none → persistDeleteProp lib file key = none →
      Behaves lib file (.delete key) := by
    intro hmap hfails
    have hsame : Function.update (mapOf lib file) key none = mapOf lib file :=
      Function.update_eq_self_iff.2 hmap.symm
    simpa [Behaves, call, specCall, hfails, hmap, hsame] using hfile
  by_cases hne : file = []
  · subst hne
    exact habsent (mapOf_nil key) (by rw [persistDeleteProp, protoReadProps, if_pos rfl]; rfl)
  obtain ⟨props, hread, hsorted, hdistinct, hmap⟩ := hfile.read hne
  rcases search_cases lib hsorted hdistinct key with
    ⟨before, r, after, hsearch, rfl, hname, hothers, hrest⟩ | ⟨before, after, hsearch, rfl, hnone⟩
  · have hdeleted : persistDeleteProp lib file key = some (lib.encode (before ++ after)) := by
      simp [persistDeleteProp, hread, hsearch, protoWriteProps, List.eraseIdx_append_of_length_le]
    have hpresent : mapOf lib file key = some r.value := by
      rw [hmap, find_middle hname hothers, if_pos rfl, Option.map_some]
    have hafter : mapOf lib (lib.encode (before ++ after)) = Function.update (mapOf lib file) key none := by
      funext k
      rw [mapOf_encode]
      by_cases hk : k = key
      · subst hk
        rw [hothers, Function.update_self, Option.map_none]
      · rw [Function.update_of_ne hk, hmap, find_middle hname hothers, if_neg hk]
    simp only [Behaves, call, specCall, hdeleted, hafter, hpresent]
    exact ⟨rfl, _, lib.decode_encode _, hrest⟩
  · refine habsent (by rw [hmap, hnone, Option.map_none]) ?_
    simp [persistDeleteProp, hread, hsearch]

def Call.isSet : Call → Bool
  | set .. => true
  | _ => false

theorem behaves_iff (hfile : WellFormed lib file) (c : Call) :
    Behaves lib file c ↔ (c.isSet = true → file ≠ []) := by
  cases c with
  | get key =>
      refine iff_of_true ?_ (by simp [Call.isSet])
      simpa [Behaves, call, specCall, persistGetProp_eq hfile] using hfile
  | set key val =>
      constructor
      · rintro hbehaves - rfl
        have hreply := congrArg Prod.snd hbehaves.1
        simp [call, specCall, persistSetProp, protoReadProps] at hreply
      · intro hne
        exact behaves_set hfile (hne rfl) key val
  | delete key => exact iff_of_true (behaves_delete hfile key) (by simp [Call.isSet])

theorem wellFormed_call (hfile : WellFormed lib file) (c : Call) : WellFormed lib (call lib file c).1 := by
  by_cases hset : c.isSet = true → file ≠ []
  · exact ((behaves_iff hfile c).2 hset).2
  · -- A call that fails leaves the file alone.
    cases c with
    | get key | delete key => simp [Call.isSet] at hset
    | set key val =>
        obtain rfl : file = [] := by simpa [Call.isSet] using hset
        simpa [call, persistSetProp, protoReadProps] using hfile

/-- **The store is a map.** Along any sequence of calls, all calls do what they mean for a map exactly if
no property is set while the file is empty. -/
theorem behaves_run_iff (hfile : WellFormed lib file) (calls : List Call) :
    (∀ x ∈ Machine.taken (fun file c => some (call lib file c).1) file calls, Behaves lib x.1 x.2) ↔
      ∀ x ∈ Machine.taken (fun file c => some (call lib file c).1) file calls,
        x.2.isSet = true → x.1 ≠ [] := by
  have hstep : ∀ (file : List UInt8) (c : Call) (file' : List UInt8),
      some (call lib file c).1 = some file' → WellFormed lib file → WellFormed lib file' := by
    intro file c file' hcall hfile
    cases hcall
    exact wellFormed_call hfile c
  have hinv := Machine.forall_taken hstep hfile calls
  exact forall₂_congr fun x hx => behaves_iff (hinv x hx) x.2

theorem encode_ne_nil (hprops : props ≠ []) : lib.encode props ≠ [] := by
  intro hnil
  have hdecode := lib.decode_encode props
  rw [hnil, decode_nil] at hdecode
  exact hprops (Option.some.inj hdecode).symm

def oneProp : List PersistentPropertyRecord := [⟨some "persist.a", some "1"⟩]

theorem encode_oneProp_ne_nil (lib : PropLib) : lib.encode oneProp ≠ [] :=
  encode_ne_nil (List.cons_ne_nil _ _)

theorem protoReadProps_oneProp (lib : PropLib) :
    protoReadProps lib (lib.encode oneProp) = some oneProp := by
  have hsort : lib.sort oneProp = oneProp := List.perm_singleton.1 (lib.sort_perm oneProp)
  rw [protoReadProps, if_neg (encode_oneProp_ne_nil lib), lib.decode_encode, Option.map_some, hsort]

theorem call_delete_oneProp (lib : PropLib) :
    (call lib (lib.encode oneProp) (.delete "persist.a")).1 = [] := by
  have hread := protoReadProps_oneProp lib
  have hsearch : lib.search oneProp "persist.a" = .ok 0 := by
    have hsorted : Sorted oneProp := List.pairwise_singleton _ _
    cases hfound : lib.search oneProp "persist.a" with
    | ok i =>
        obtain ⟨r, hr, -⟩ := lib.search_ok hsorted hfound
        have hi := (List.getElem?_eq_some_iff.1 hr).1
        simp only [oneProp, List.length_singleton] at hi
        rw [Nat.lt_one_iff.1 hi]
    | error i => exact absurd rfl ((lib.search_error hsorted hfound).2 _ List.mem_cons_self)
  have hwrite : protoWriteProps lib (oneProp.eraseIdx 0) = [] := lib.encode_nil
  simp only [call, persistDeleteProp, hread, hsearch, Option.bind_eq_bind, Option.bind_some, hwrite]
  rfl

theorem not_behaves_oneProp (lib : PropLib) :
    ¬ ∀ x ∈ Machine.taken (fun file c => some (call lib file c).1) (lib.encode oneProp)
      [.delete "persist.a", .set "persist.b" "2"], Behaves lib x.1 x.2 := by
  intro hall
  simp only [Machine.taken, call_delete_oneProp] at hall
  have hlast := hall ([], .set "persist.b" "2") (.tail _ (.head _))
  exact (behaves_iff ⟨[], decode_nil, List.nodup_nil⟩ _).1 hlast rfl rfl

/-! ### The file

Each record is field 1 of the file, its name and its value are the fields 1 and 2 of the record. -/

namespace PersistentPropertyRecord

def field (tag : UInt8) (text : Option String) : List UInt8 :=
  text.elim [] fun s => tag :: Wire.delimited (Text.utf8Bytes s)

def readField (tag : UInt8) : List UInt8 → Option (Option String × List UInt8)
  | [] => some (none, [])
  | b :: rest =>
      if b = tag then do
        let (bytes, rest) ← Wire.readDelimited rest
        let s ← Text.ofUtf8? bytes
        return (some s, rest)
      else some (none, b :: rest)

theorem readField_field (tag : UInt8) (text : Option String) {rest : List UInt8}
    (hrest : text = none → rest.head? ≠ some tag) : readField tag (field tag text ++ rest) = some (text, rest) := by
  cases text with
  | none =>
      cases rest with
      | nil => rfl
      | cons b rest =>
          have hb : b ≠ tag := fun h => hrest rfl (by rw [h]; rfl)
          exact if_neg hb
  | some s =>
      rw [field, Option.elim_some, List.cons_append, readField, if_pos rfl, Wire.readDelimited_delimited]
      simp only [Option.bind_eq_bind, Option.bind_some, Text.ofUtf8?_utf8Bytes, Option.pure_def]

def body (r : PersistentPropertyRecord) : List UInt8 := field 0x0a r.name ++ field 0x12 r.value

def readBody (bytes : List UInt8) : Option PersistentPropertyRecord := do
  let (name, rest) ← readField 0x0a bytes
  let (value, rest) ← readField 0x12 rest
  if rest = [] then return ⟨name, value⟩
  none

theorem readBody_body (r : PersistentPropertyRecord) : readBody r.body = some r := by
  have hvalue : (field 0x12 r.value).head? ≠ some 0x0a := by
    cases r.value with
    | none => exact nofun
    | some s =>
        intro h
        exact absurd (Option.some.inj h) (by decide)
  have hlast : readField 0x12 (field 0x12 r.value ++ []) = some (r.value, []) :=
    readField_field 0x12 r.value fun _ => nofun
  rw [List.append_nil] at hlast
  rw [readBody, body, readField_field 0x0a r.name fun _ => hvalue]
  simp only [Option.bind_eq_bind, Option.bind_some, hlast, if_true, Option.pure_def]

variable (props : List PersistentPropertyRecord)

def encodeProps : List UInt8 :=
  props.flatMap fun r => 0x0a :: Wire.delimited r.body

def readProps : Nat → List UInt8 → Option (List PersistentPropertyRecord)
  | _, [] => some []
  | 0, _ :: _ => none
  | limit + 1, b :: rest =>
      if b = 0x0a then do
        let (bytes, rest) ← Wire.readDelimited rest
        let r ← readBody bytes
        let props ← readProps limit rest
        return r :: props
      else none

theorem readProps_encodeProps {limit : Nat}
    (hlimit : props.length ≤ limit) : readProps limit (encodeProps props) = some props := by
  induction props generalizing limit with
  | nil => cases limit <;> rfl
  | cons r props ih =>
      obtain ⟨limit, rfl⟩ : ∃ n, limit = n + 1 := ⟨limit - 1, by rw [List.length_cons] at hlimit; omega⟩
      rw [encodeProps, List.flatMap_cons, List.cons_append, readProps, if_pos rfl, Wire.readDelimited_delimited]
      have hrest := ih (Nat.le_of_succ_le_succ hlimit)
      rw [encodeProps] at hrest
      simp only [Option.bind_eq_bind, Option.bind_some, readBody_body, hrest, Option.pure_def]

theorem length_le_encodeProps : props.length ≤ (encodeProps props).length := by
  induction props with
  | nil => exact Nat.le_refl 0
  | cons r props ih =>
      rw [encodeProps, List.flatMap_cons, List.length_append, List.length_cons, List.length_cons]
      rw [encodeProps] at ih
      omega

end PersistentPropertyRecord

def wireLib : PropLib where
  encode := encodeProps
  decode file := readProps file.length file
  sort props := props.insertionSort fun a b => a.rank ≤ b.rank
  search props name :=
    match props.findIdx? fun r => r.name = some name with
    | some i => .ok i
    | none => .error (props.countP fun r => r.rank < (name : WithBot String))
  decode_encode props := readProps_encodeProps props (length_le_encodeProps props)
  encode_nil := rfl
  sort_perm props := List.perm_insertionSort _ props
  sorted_sort props := by
    have : Std.Total fun a b : PersistentPropertyRecord => a.rank ≤ b.rank := ⟨fun a b => le_total _ _⟩
    have : IsTrans PersistentPropertyRecord fun a b => a.rank ≤ b.rank := ⟨fun a b c => le_trans⟩
    exact List.pairwise_insertionSort _ props
  search_ok := by
    intro props name i _ hsearch
    split at hsearch
    · rename_i hi
      cases hsearch
      obtain ⟨hlt, hname, -⟩ := List.findIdx?_eq_some_iff_getElem.1 hi
      exact ⟨props[i], List.getElem?_eq_getElem hlt, by simpa using hname⟩
    · cases hsearch
  search_error := by
    intro props name i _ hsearch
    split at hsearch
    · cases hsearch
    · rename_i hnone
      cases hsearch
      exact ⟨List.countP_le_length, fun r hr => by simpa using List.findIdx?_eq_none_iff.1 hnone r hr⟩

example : wireLib.encode oneProp
    = [0x0a, 0x0e, 0x0a, 0x09, 0x70, 0x65, 0x72, 0x73, 0x69, 0x73, 0x74, 0x2e, 0x61, 0x12, 0x01, 0x31] := by
  have hname : Text.utf8Bytes "persist.a" = [0x70, 0x65, 0x72, 0x73, 0x69, 0x73, 0x74, 0x2e, 0x61] := by decide
  have hvalue : Text.utf8Bytes "1" = [0x31] := by decide
  simp [wireLib, oneProp, encodeProps, body, field, Wire.delimited_of_lt, hname, hvalue]

theorem wellFormed_oneProp : WellFormed wireLib (wireLib.encode oneProp) :=
  ⟨oneProp, wireLib.decode_encode oneProp, List.nodup_singleton _⟩

theorem behaves_set_oneProp :
    WellFormed wireLib (wireLib.encode oneProp) ∧
      ∀ x ∈ Machine.taken (fun file c => some (call wireLib file c).1) (wireLib.encode oneProp)
        [.set "persist.b" "2"], Behaves wireLib x.1 x.2 := by
  refine ⟨wellFormed_oneProp, (behaves_run_iff wellFormed_oneProp _).2 ?_⟩
  intro x hx _
  rw [List.mem_singleton.1 hx]
  exact encode_oneProp_ne_nil wireLib

/-- The deletion of the only property leaves an empty file, in which no property can be set. -/
theorem not_behaves_deleted :
    WellFormed wireLib (wireLib.encode oneProp) ∧
      ¬ ∀ x ∈ Machine.taken (fun file c => some (call wireLib file c).1) (wireLib.encode oneProp)
        [.delete "persist.a", .set "persist.b" "2"], Behaves wireLib x.1 x.2 :=
  ⟨wellFormed_oneProp, not_behaves_oneProp wireLib⟩

end MagiskNative.Resetprop
