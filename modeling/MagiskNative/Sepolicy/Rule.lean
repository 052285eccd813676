import MagiskNative.Sepolicy.Policy

/-!
# Access vector rules

`add_rule` and the statements `allow`, `deny`, `auditallow` and `dontaudit` over it. A rule without a
source goes to every type only if it takes permissions away; otherwise it goes to every attribute, and
the types get it from there.
-/

namespace MagiskNative.Sepolicy

open Avtab

variable {db db' : PolicyDb} {effect : RuleEffect}

structure PermDatum where
  value : UInt32
  deriving DecidableEq, Repr

def PermDatum.bit (perm : PermDatum) : UInt32 := 1 <<< (perm.value - 1)

def permMask : Option PermDatum → UInt32
  | some perm => perm.bit
  | none => ~~~0

def freshData : RuleEffect → UInt32
  | .auditDeny => ~~~0
  | _ => 0

def AvtabNode.setData (node : AvtabNode) (f : UInt32 → UInt32) : AvtabNode :=
  match node with
  | .rule key data => .rule key (f data)
  | .xperms key datum => .xperms key datum

theorem AvtabNode.slot?_setData (node : AvtabNode) (f : UInt32 → UInt32) :
    (node.setData f).slot? = node.slot? := by
  cases node <;> rfl

def AvtabNode.data : AvtabNode → UInt32
  | .rule _ data => data
  | .xperms _ _ => 0

namespace Avtab

variable (t : Avtab) (key : AvtabKey RuleEffect)

def data? : Option UInt32 :=
  (t.lookup (.rule key)).map AvtabNode.data

def updateData (f : UInt32 → UInt32) : Avtab :=
  t.update (.rule key) (AvtabNode.setData · f) fun node hnode => by
    rw [AvtabNode.slot?_setData, hnode]

def getRuleNode : Avtab :=
  t.getNode (.rule key) (.rule key (freshData key.specified)) rfl

variable (perm : Option PermDatum)

def changeData (invert : Bool) (data : UInt32) : UInt32 :=
  match invert, perm with
  | true, some perm => data &&& ~~~perm.bit
  | true, none => 0
  | false, some perm => data ||| perm.bit
  | false, none => ~~~0

def addRule (invert : Bool) : Avtab :=
  let t := (t.getRuleNode key).updateData key (changeData perm invert)
  if t.data? key = some (freshData key.specified) then t.removeNode (.rule key) else t

theorem data?_removeNode (key key' : AvtabKey RuleEffect) :
    (t.removeNode (.rule key)).data? key' = if key' = key then none else t.data? key' := by
  simp only [data?, removeNode, Keyed.Table.lookup_remove, Slot.rule.injEq]
  split <;> rfl

theorem data?_getRuleNode (key key' : AvtabKey RuleEffect) : (t.getRuleNode key).data? key'
      = if key' = key then some ((t.data? key).getD (freshData key.specified)) else t.data? key' := by
  have hlookup : (t.getRuleNode key).lookup (.rule key') = _ :=
    lookup_getNode t (.rule key) (.rule key (freshData key.specified)) rfl (.rule key')
  rw [data?, hlookup, data?, data?]
  simp only [Slot.rule.injEq]
  split
  · cases t.lookup (.rule key) <;> rfl
  · rfl

theorem data_setData {node : AvtabNode} {key : AvtabKey RuleEffect} (hslot : node.slot? = some (.rule key))
    (f : UInt32 → UInt32) : (node.setData f).data = f node.data := by
  cases node with
  | rule key data => rfl
  | xperms key datum => rcases datum with ⟨_ | _ | _, driver, perms⟩ <;> cases hslot

theorem data?_updateData (key key' : AvtabKey RuleEffect) (f : UInt32 → UInt32) :
    (t.updateData key f).data? key' = if key' = key then (t.data? key).map f else t.data? key' := by
  simp only [data?, updateData, Keyed.Table.lookup_update, Slot.rule.injEq]
  by_cases hkey : key' = key
  · rw [if_pos hkey, if_pos hkey]
    cases hlookup : t.lookup (.rule key) with
    | none => rfl
    | some node => simp [data_setData (Keyed.Table.key?_of_lookup hlookup)]
  · rw [if_neg hkey, if_neg hkey]

theorem changeData_eq (invert : Bool) (data : UInt32) :
    changeData perm invert data = if invert then data &&& ~~~permMask perm else data ||| permMask perm := by
  cases invert <;> cases perm <;> simp [changeData, permMask]

def vector : UInt32 :=
  (t.data? key).getD (freshData key.specified)

theorem data?_addRule (invert : Bool) (key' : AvtabKey RuleEffect) :
    (t.addRule key perm invert).data? key' =
      if key' = key then
        if changeData perm invert (t.vector key) = freshData key.specified then none
        else some (changeData perm invert (t.vector key))
      else t.data? key' := by
  set t' := (t.getRuleNode key).updateData key (changeData perm invert) with ht'
  have hrule : t.addRule key perm invert
      = if t'.data? key = some (freshData key.specified) then t'.removeNode (.rule key) else t' := rfl
  have hdata : ∀ key', t'.data? key'
      = if key' = key then some (changeData perm invert (t.vector key)) else t.data? key' := by
    intro key'
    rw [ht', data?_updateData, data?_getRuleNode, data?_getRuleNode, if_pos rfl, Option.map_some]
    split <;> rfl
  have hself : t'.data? key = some (changeData perm invert (t.vector key)) := by
    rw [hdata, if_pos rfl]
  rw [hrule]
  by_cases hfresh : changeData perm invert (t.vector key) = freshData key.specified
  · rw [if_pos (by rw [hself, hfresh]), data?_removeNode, if_pos hfresh, hdata]
    split <;> rfl
  · rw [if_neg (by rwa [hself, Option.some.injEq]), if_neg hfresh, hdata]

def grants (b : Nat) : Bool :=
  ((t.data? key).getD 0).toBitVec.getLsbD b

theorem grants_eq_vector {key : AvtabKey RuleEffect} (hfresh : freshData key.specified = 0)
    (b : Nat) : t.grants key b = (t.vector key).toBitVec.getLsbD b := by
  rw [grants, vector, hfresh]

end Avtab

namespace PolicyDb

def ruleKey (src tgt : TypeDatum) (cls : ClassDatum) (effect : RuleEffect) : AvtabKey RuleEffect where
  sourceType := src.value.toUInt16
  targetType := tgt.value.toUInt16
  targetClass := cls.value.toUInt16
  specified := effect

/-- Invert is adding rules for auditdeny; in other cases, invert is removing rules. -/
def stripAv (effect : RuleEffect) (invert : Bool) : Bool := decide (effect = .auditDeny) == !invert

def wildcard (db : PolicyDb) (effect : RuleEffect) (invert : Bool) : List TypeDatum :=
  if stripAv effect invert then db.types.map Prod.snd else db.attributes

def addRule (db : PolicyDb) (src tgt : Option TypeDatum) (cls : Option ClassDatum)
    (perm : Option PermDatum) (effect : RuleEffect) (invert : Bool) : PolicyDb :=
  match src, tgt, cls with
  | none, tgt, cls =>
      (db.wildcard effect invert).foldl
        (fun db type => db.addRule (some type) tgt cls perm effect invert) db
  | some src, none, cls =>
      (db.wildcard effect invert).foldl
        (fun db type => db.addRule (some src) (some type) cls perm effect invert) db
  | some src, some tgt, none =>
      db.classes.foldl
        (fun db cls => db.addRule (some src) (some tgt) (some cls.2) perm effect invert) db
  | some src, some tgt, some cls =>
      { db with teAvtab := db.teAvtab.addRule (ruleKey src tgt cls effect) perm invert }
termination_by src.isNone.toNat + tgt.isNone.toNat + cls.isNone.toNat

/-- The permissions of a class: its own and those that it has in common with others. -/
structure PermTables where
  own : ClassDatum → List (List UInt8 × PermDatum)
  common : ClassDatum → List (List UInt8 × PermDatum)

def PermTables.find (tables : PermTables) (cls : ClassDatum) (p : String) : Option PermDatum :=
  match hashtabFind (tables.own cls) p with
  | some perm => some perm
  | none => hashtabFind (tables.common cls) p

def addRuleNamed (db : PolicyDb) (tables : PermTables) (s t c p : String) (effect : RuleEffect)
    (invert : Bool) : PolicyDb × Bool :=
  match findName db.types s with
  | none => (db, false)
  | some src =>
      match findName db.types t with
      | none => (db, false)
      | some tgt =>
          match findName db.classes c with
          | none => (db, false)
          | some cls =>
              if p = "" then (db.addRule src tgt cls none effect invert, true)
              else
                -- a permission needs a class
                match cls.bind fun cls => tables.find cls p with
                | none => (db, false)
                | some perm => (db.addRule src tgt cls (some perm) effect invert, true)

def expandRule (db : PolicyDb) (tables : PermTables) (src tgt cls perm : List String)
    (effect : RuleEffect) (invert : Bool) : PolicyDb :=
  (expandNames src).foldl (fun db s =>
    (expandNames tgt).foldl (fun db t =>
      (expandNames cls).foldl (fun db c =>
        (expandNames perm).foldl
          (fun db p => (db.addRuleNamed tables s t c p effect invert).1) db) db) db) db

def allow (db : PolicyDb) (tables : PermTables) (src tgt cls perm : List String) : PolicyDb :=
  db.expandRule tables src tgt cls perm .allowed false

def deny (db : PolicyDb) (tables : PermTables) (src tgt cls perm : List String) : PolicyDb :=
  db.expandRule tables src tgt cls perm .allowed true

def auditallow (db : PolicyDb) (tables : PermTables) (src tgt cls perm : List String) : PolicyDb :=
  db.expandRule tables src tgt cls perm .auditAllow false

def dontaudit (db : PolicyDb) (tables : PermTables) (src tgt cls perm : List String) : PolicyDb :=
  db.expandRule tables src tgt cls perm .auditDeny true

/-! ### What a rule changes

A rule goes to a number of keys and does the same at each of them. -/

/-- The vectors at the `named` keys have gone through `f`, and nothing else has changed. -/
structure Edits (db db' : PolicyDb) (named : AvtabKey RuleEffect → Prop) (f : UInt32 → UInt32) : Prop where
  types : db'.types = db.types
  classes : db'.classes = db.classes
  vector : ∀ key, named key → db'.teAvtab.vector key = f (db.teAvtab.vector key)
  stored : ∀ key, named key → db'.teAvtab.data? key ≠ some (freshData key.specified)
  kept : ∀ key, ¬ named key → db'.teAvtab.data? key = db.teAvtab.data? key

theorem Edits.congr {named named' : AvtabKey RuleEffect → Prop} {f : UInt32 → UInt32}
    (hedits : Edits db db' named f) (hiff : ∀ key, named key ↔ named' key) : Edits db db' named' f := by
  obtain rfl : named = named' := funext fun key => propext (hiff key)
  exact hedits

/-- A key may be named more than once, so the change must be one that makes no difference the second
time. -/
theorem Edits.foldl {α : Type} {step : PolicyDb → α → PolicyDb}
    {named : α → AvtabKey RuleEffect → Prop} {f : UInt32 → UInt32} (hf : ∀ data, f (f data) = f data)
    {xs : List α}
    (hstep : ∀ db', db'.types = db.types → db'.classes = db.classes → ∀ x ∈ xs,
      Edits db' (step db' x) (named x) f) :
    Edits db (xs.foldl step db) (fun key => ∃ x ∈ xs, named x key) f := by
  induction xs generalizing db with
  | nil => exact ⟨rfl, rfl, by simp, by simp, fun _ _ => rfl⟩
  | cons x xs ih =>
      have hfirst := hstep db rfl rfl x List.mem_cons_self
      have hrest := @ih (step db x) fun db' htypes hclasses y hy =>
        hstep db' (htypes.trans hfirst.types) (hclasses.trans hfirst.classes) y (List.mem_cons_of_mem x hy)
      have hlater : ∀ key, ¬ (∃ y ∈ xs, named y key) →
          (xs.foldl step (step db x)).teAvtab.vector key = (step db x).teAvtab.vector key := by
        intro key hnot
        rw [Avtab.vector, hrest.kept key hnot, Avtab.vector]
      rw [List.foldl_cons]
      refine ⟨hrest.types.trans hfirst.types, hrest.classes.trans hfirst.classes, ?_, ?_, ?_⟩
      · intro key hnamed
        by_cases hlast : ∃ y ∈ xs, named y key
        · rw [hrest.vector key hlast]
          by_cases hx : named x key
          · rw [hfirst.vector key hx, hf]
          · rw [Avtab.vector, hfirst.kept key hx, Avtab.vector]
        · rw [hlater key hlast]
          refine hfirst.vector key ?_
          simpa [hlast] using hnamed
      · intro key hnamed
        by_cases hlast : ∃ y ∈ xs, named y key
        · exact hrest.stored key hlast
        · rw [hrest.kept key hlast]
          refine hfirst.stored key ?_
          simpa [hlast] using hnamed
      · intro key hnot
        simp only [List.mem_cons, exists_eq_or_imp, not_or] at hnot
        rw [hrest.kept key hnot.2, hfirst.kept key hnot.1]

theorem changeData_idem (perm : Option PermDatum) (invert : Bool) (data : UInt32) :
    Avtab.changeData perm invert (Avtab.changeData perm invert data) = Avtab.changeData perm invert data := by
  rw [changeData_eq, changeData_eq]
  cases invert
  · simp [UInt32.or_assoc]
  · simp [UInt32.and_assoc]

def reached (db : PolicyDb) (effect : RuleEffect) (invert : Bool) : Option TypeDatum → List TypeDatum
  | some type => [type]
  | none => db.wildcard effect invert

def classesOf (db : PolicyDb) : Option ClassDatum → List ClassDatum
  | some cls => [cls]
  | none => db.classes.map Prod.snd

theorem reached_congr (htypes : db'.types = db.types) (effect : RuleEffect)
    (invert : Bool) (type : Option TypeDatum) :
    db'.reached effect invert type = db.reached effect invert type := by
  cases type with
  | some type => rfl
  | none => rw [reached, reached, wildcard, wildcard, attributes, attributes, htypes]

theorem classesOf_congr (hclasses : db'.classes = db.classes)
    (cls : Option ClassDatum) : db'.classesOf cls = db.classesOf cls := by
  cases cls with
  | some cls => rfl
  | none => rw [classesOf, classesOf, hclasses]

theorem edits_addRule (db : PolicyDb) (src tgt : Option TypeDatum) (cls : Option ClassDatum)
    (perm : Option PermDatum) (effect : RuleEffect) (invert : Bool) :
    Edits db (db.addRule src tgt cls perm effect invert) (fun key =>
      ∃ s ∈ db.reached effect invert src, ∃ t ∈ db.reached effect invert tgt, ∃ c ∈ db.classesOf cls,
        key = ruleKey s t c effect) (Avtab.changeData perm invert) := by
  have hidem := changeData_idem perm invert
  -- From the innermost case outwards, one wildcard at a time.
  have hsome : ∀ db (s t : TypeDatum) (c : ClassDatum),
      Edits db (db.addRule (some s) (some t) (some c) perm effect invert)
        (fun key => key = ruleKey s t c effect) (Avtab.changeData perm invert) := by
    intro db s t c
    rw [addRule.eq_def]
    refine ⟨rfl, rfl, ?_, ?_, ?_⟩
    · rintro key rfl
      rw [Avtab.vector, data?_addRule, if_pos rfl]
      split
      · rename_i hfresh
        exact hfresh.symm
      · rfl
    · rintro key rfl
      rw [data?_addRule, if_pos rfl]
      split
      · exact nofun
      · rename_i hfresh
        exact fun h => hfresh (Option.some.inj h)
    · intro key hkey
      rw [data?_addRule, if_neg hkey]
  have hcls : ∀ db (s t : TypeDatum) cls,
      Edits db (db.addRule (some s) (some t) cls perm effect invert)
        (fun key => ∃ c ∈ db.classesOf cls, key = ruleKey s t c effect) (Avtab.changeData perm invert) := by
    intro db s t cls
    cases cls with
    | some c => exact (hsome db s t c).congr fun key => by simp [classesOf]
    | none =>
        rw [addRule.eq_def]
        refine (Edits.foldl hidem fun db' _ _ c _ => hsome db' s t c.2).congr fun key => ?_
        simp only [classesOf, List.mem_map]
        constructor
        · rintro ⟨c, hc, hkey⟩
          exact ⟨c.2, ⟨c, hc, rfl⟩, hkey⟩
        · rintro ⟨_, ⟨c, hc, rfl⟩, hkey⟩
          exact ⟨c, hc, hkey⟩
  have htgt : ∀ db (s : TypeDatum) tgt,
      Edits db (db.addRule (some s) tgt cls perm effect invert) (fun key =>
        ∃ t ∈ db.reached effect invert tgt, ∃ c ∈ db.classesOf cls, key = ruleKey s t c effect)
        (Avtab.changeData perm invert) := by
    intro db s tgt
    cases tgt with
    | some t => exact (hcls db s t cls).congr fun key => by simp [reached]
    | none =>
        rw [addRule.eq_def]
        refine Edits.foldl hidem fun db' _ hclasses t _ => ?_
        rw [← classesOf_congr hclasses]
        exact hcls db' s t cls
  cases src with
  | some s => exact (htgt db s tgt).congr fun key => by simp [reached]
  | none =>
      rw [addRule.eq_def]
      refine Edits.foldl hidem fun db' htypes hclasses s _ => ?_
      rw [← classesOf_congr hclasses, ← reached_congr htypes]
      exact htgt db' s tgt

/-- The bits of `added` have come to the rules, and nothing else has changed. -/
structure Adds (db db' : PolicyDb) (added : AvtabKey RuleEffect → Nat → Prop) : Prop where
  types : db'.types = db.types
  classes : db'.classes = db.classes
  grants : ∀ key b, db'.teAvtab.grants key b = true ↔ db.teAvtab.grants key b = true ∨ added key b

theorem Adds.foldl {α : Type} {step : PolicyDb → α → PolicyDb} {added : α → AvtabKey RuleEffect → Nat → Prop}
    {xs : List α}
    (hstep : ∀ db', db'.types = db.types → db'.classes = db.classes → ∀ x ∈ xs,
      Adds db' (step db' x) (added x)) :
    Adds db (xs.foldl step db) fun key b => ∃ x ∈ xs, added x key b := by
  induction xs generalizing db with
  | nil => exact ⟨rfl, rfl, by simp⟩
  | cons x xs ih =>
      have hfirst := hstep db rfl rfl x List.mem_cons_self
      have hrest := @ih (step db x) fun db' htypes hclasses y hy =>
        hstep db' (htypes.trans hfirst.types) (hclasses.trans hfirst.classes) y (List.mem_cons_of_mem x hy)
      refine ⟨hrest.types.trans hfirst.types, hrest.classes.trans hfirst.classes, fun key b => ?_⟩
      rw [List.foldl_cons, hrest.grants, hfirst.grants, or_assoc]
      simp

theorem Adds.congr {added added' : AvtabKey RuleEffect → Nat → Prop}
    (hadds : Adds db db' added) (hiff : ∀ key b, added key b ↔ added' key b) : Adds db db' added' :=
  ⟨hadds.types, hadds.classes, fun key b => by rw [hadds.grants, hiff]⟩

def typesOf (db : PolicyDb) : Option TypeDatum → List TypeDatum
  | some type => [type]
  | none => db.attributes

theorem typesOf_congr (htypes : db'.types = db.types) (type : Option TypeDatum) :
    db'.typesOf type = db.typesOf type := by
  cases type with
  | some type => rfl
  | none => rw [typesOf, typesOf, attributes, attributes, htypes]

def Grants (effect : RuleEffect) : Prop := effect = .allowed ∨ effect = .auditAllow

theorem Grants.freshData (heffect : Grants effect) :
    Sepolicy.freshData effect = 0 := by
  rcases heffect with rfl | rfl <;> rfl

theorem Grants.wildcard (heffect : Grants effect) (db : PolicyDb) :
    db.wildcard effect false = db.attributes := by
  rcases heffect with rfl | rfl <;> rfl

theorem Grants.reached (heffect : Grants effect) (db : PolicyDb)
    (type : Option TypeDatum) : db.reached effect false type = db.typesOf type := by
  cases type with
  | some type => rfl
  | none => rw [PolicyDb.reached, heffect.wildcard, typesOf]

theorem adds_addRule (heffect : Grants effect) (db : PolicyDb)
    (src tgt : Option TypeDatum) (cls : Option ClassDatum) (perm : Option PermDatum) :
    Adds db (db.addRule src tgt cls perm effect false) fun key b =>
      ∃ s ∈ db.typesOf src, ∃ t ∈ db.typesOf tgt, ∃ c ∈ db.classesOf cls,
        key = ruleKey s t c effect ∧ (permMask perm).toBitVec.getLsbD b = true := by
  have hedits := edits_addRule db src tgt cls perm effect false
  simp only [heffect.reached] at hedits
  refine ⟨hedits.types, hedits.classes, fun key b => ?_⟩
  have hadded : (∃ s ∈ db.typesOf src, ∃ t ∈ db.typesOf tgt, ∃ c ∈ db.classesOf cls,
      key = ruleKey s t c effect ∧ (permMask perm).toBitVec.getLsbD b = true) ↔
      (∃ s ∈ db.typesOf src, ∃ t ∈ db.typesOf tgt, ∃ c ∈ db.classesOf cls, key = ruleKey s t c effect) ∧
        (permMask perm).toBitVec.getLsbD b = true := by
    constructor
    · rintro ⟨s, hs, t, ht, c, hc, hkey, hbit⟩
      exact ⟨⟨s, hs, t, ht, c, hc, hkey⟩, hbit⟩
    · rintro ⟨⟨s, hs, t, ht, c, hc, hkey⟩, hbit⟩
      exact ⟨s, hs, t, ht, c, hc, hkey, hbit⟩
  rw [hadded]
  by_cases hnamed : ∃ s ∈ db.typesOf src, ∃ t ∈ db.typesOf tgt, ∃ c ∈ db.classesOf cls,
      key = ruleKey s t c effect
  · have hfresh : freshData key.specified = 0 := by
      obtain ⟨s, -, t, -, c, -, rfl⟩ := hnamed
      exact heffect.freshData
    rw [grants_eq_vector _ hfresh, grants_eq_vector _ hfresh, hedits.vector key hnamed,
      changeData_eq, if_neg Bool.false_ne_true, and_iff_right hnamed]
    simp
  · rw [Avtab.grants, hedits.kept key hnamed, Avtab.grants]
    simp [hnamed]

section Effective

-- the attributes that contain each type, by value
variable (typeAttrMap : UInt32 → List UInt32)

/-- What a type may do: by a rule for the type itself or for an attribute that contains it. -/
def effective (db : PolicyDb) (effect : RuleEffect) (s : TypeDatum) (tgt cls : UInt16) (b : Nat) : Prop :=
  ∃ value ∈ s.value :: typeAttrMap s.value, db.teAvtab.grants ⟨value.toUInt16, tgt, cls, effect⟩ b = true

def plainTypes (db : PolicyDb) : List TypeDatum :=
  (db.types.map Prod.snd).filter fun type => type.flavor ≠ .attrib

def addRuleEach (db : PolicyDb) (tgt : Option TypeDatum) (cls : Option ClassDatum)
    (perm : Option PermDatum) (effect : RuleEffect) : PolicyDb :=
  db.plainTypes.foldl (fun db type => db.addRule (some type) tgt cls perm effect false) db

def Names (db : PolicyDb) (tgt : Option TypeDatum) (cls : Option ClassDatum) (perm : Option PermDatum)
    (t c : UInt16) (b : Nat) : Prop :=
  (∃ type ∈ db.typesOf tgt, t = type.value.toUInt16) ∧ (∃ cl ∈ db.classesOf cls, c = cl.value.toUInt16) ∧
    (permMask perm).toBitVec.getLsbD b = true

def InAttribute (db : PolicyDb) (s : TypeDatum) : Prop :=
  ∃ value ∈ s.value :: typeAttrMap s.value, ∃ attr ∈ db.attributes, value.toUInt16 = attr.value.toUInt16

variable {typeAttrMap} {effect : RuleEffect} {db : PolicyDb} {tgt : Option TypeDatum}
  {cls : Option ClassDatum} {perm : Option PermDatum} {s : TypeDatum} {t c : UInt16} {b : Nat}

theorem effective_of_adds {sources : List TypeDatum}
    (hadds : Adds db db' fun key b => ∃ s ∈ sources, ∃ t ∈ db.typesOf tgt, ∃ c ∈ db.classesOf cls,
      key = ruleKey s t c effect ∧ (permMask perm).toBitVec.getLsbD b = true) :
    db'.effective typeAttrMap effect s t c b ↔ db.effective typeAttrMap effect s t c b ∨
      db.Names tgt cls perm t c b ∧
        ∃ value ∈ s.value :: typeAttrMap s.value, ∃ src ∈ sources, value.toUInt16 = src.value.toUInt16 := by
  constructor
  · rintro ⟨value, hvalue, hgrants⟩
    rcases (hadds.grants _ _).1 hgrants with hold | ⟨src, hsrc, type, htype, cl, hcl, hkey, hbit⟩
    · exact .inl ⟨value, hvalue, hold⟩
    · rw [ruleKey, AvtabKey.mk.injEq] at hkey
      obtain ⟨hsource, htarget, hclass, -⟩ := hkey
      exact .inr ⟨⟨⟨type, htype, htarget⟩, ⟨cl, hcl, hclass⟩, hbit⟩, value, hvalue, src, hsrc, hsource⟩
  · rintro (⟨value, hvalue, hold⟩ | ⟨⟨⟨type, htype, rfl⟩, ⟨cl, hcl, rfl⟩, hbit⟩, value, hvalue, src, hsrc, hsource⟩)
    · exact ⟨value, hvalue, (hadds.grants _ _).2 (.inl hold)⟩
    · refine ⟨value, hvalue, (hadds.grants _ _).2 (.inr ⟨src, hsrc, type, htype, cl, hcl, ?_, hbit⟩)⟩
      rw [hsource]
      rfl

theorem effective_star (heffect : Grants effect) :
    (db.addRule none tgt cls perm effect false).effective typeAttrMap effect s t c b ↔
      db.effective typeAttrMap effect s t c b ∨
        db.Names tgt cls perm t c b ∧ db.InAttribute typeAttrMap s :=
  effective_of_adds (adds_addRule heffect db none tgt cls perm)

theorem effective_each (heffect : Grants effect) (hs : s ∈ db.plainTypes) :
    (db.addRuleEach tgt cls perm effect).effective typeAttrMap effect s t c b ↔
      db.effective typeAttrMap effect s t c b ∨ db.Names tgt cls perm t c b := by
  have hadds : Adds db (db.addRuleEach tgt cls perm effect) fun key b =>
      ∃ s ∈ db.plainTypes, ∃ t ∈ db.typesOf tgt, ∃ c ∈ db.classesOf cls,
        key = ruleKey s t c effect ∧ (permMask perm).toBitVec.getLsbD b = true := by
    refine Adds.foldl fun db' htypes hclasses s _ => ?_
    rw [← typesOf_congr htypes, ← classesOf_congr hclasses]
    refine (adds_addRule heffect db' (some s) tgt cls perm).congr fun key b => ?_
    rw [show db'.typesOf (some s) = [s] from rfl]
    simp only [List.mem_singleton, exists_eq_left]
  rw [effective_of_adds hadds]
  have hself : ∃ value ∈ s.value :: typeAttrMap s.value, ∃ src ∈ db.plainTypes,
      value.toUInt16 = src.value.toUInt16 := ⟨s.value, List.mem_cons_self, s, hs, rfl⟩
  simp only [hself, and_true]

end Effective

/-- **Wildcard sources.** A granting rule without a source does for every type what the rule for the type
would do, exactly if every type is in some attribute or may do before what the rule names. -/
theorem addRule_star_iff (typeAttrMap : UInt32 → List UInt32) (audit : Bool) (db : PolicyDb)
    (tgt : Option TypeDatum) (cls : Option ClassDatum) (perm : Option PermDatum) :
    let effect := if audit then RuleEffect.auditAllow else .allowed
    (∀ s ∈ db.plainTypes, ∀ t c b,
        (db.Names tgt cls perm t c b →
          (db.addRule none tgt cls perm effect false).effective typeAttrMap effect s t c b) ∧
        ((db.addRule none tgt cls perm effect false).effective typeAttrMap effect s t c b ↔
          (db.addRuleEach tgt cls perm effect).effective typeAttrMap effect s t c b)) ↔
      ∀ s ∈ db.plainTypes, db.InAttribute typeAttrMap s ∨
        ∀ t c b, db.Names tgt cls perm t c b → db.effective typeAttrMap effect s t c b := by
  intro effect
  have heffect : Grants effect := by cases audit <;> simp [effect, Grants]
  refine forall₂_congr fun s hs => ?_
  simp only [effective_star heffect, effective_each heffect hs]
  constructor
  · intro hlike
    by_cases hattr : db.InAttribute typeAttrMap s
    · exact .inl hattr
    · refine .inr fun t c b hnames => ((hlike t c b).1 hnames).resolve_right ?_
      exact fun h => hattr h.2
  · rintro (hattr | hbefore) t c b
    · simp only [hattr, and_true, iff_self, and_true]
      exact .inr
    · refine ⟨fun hnames => .inl (hbefore t c b hnames), ?_, ?_⟩
      · rintro (hold | ⟨hnames, -⟩)
        · exact .inl hold
        · exact .inr hnames
      · rintro (hold | hnames)
        · exact .inl hold
        · exact .inl (hbefore t c b hnames)

/-- Neither type of the policy is in an attribute, so that the rule goes nowhere. -/
theorem not_addRule_star_samplePolicy :
    ¬ ∀ s ∈ (samplePolicy 30).plainTypes, ∀ t c b,
      ((samplePolicy 30).Names (some ⟨2, .type⟩) (some ⟨1⟩) (some ⟨1⟩) t c b →
        ((samplePolicy 30).addRule none (some ⟨2, .type⟩) (some ⟨1⟩) (some ⟨1⟩) .allowed false).effective
          (fun value => [value]) .allowed s t c b) ∧
      (((samplePolicy 30).addRule none (some ⟨2, .type⟩) (some ⟨1⟩) (some ⟨1⟩) .allowed false).effective
          (fun value => [value]) .allowed s t c b ↔
        ((samplePolicy 30).addRuleEach (some ⟨2, .type⟩) (some ⟨1⟩) (some ⟨1⟩) .allowed).effective
          (fun value => [value]) .allowed s t c b) := by
  intro hall
  have hnames : (samplePolicy 30).Names (some ⟨2, .type⟩) (some ⟨1⟩) (some ⟨1⟩) 2 1 0 :=
    ⟨⟨_, List.mem_cons_self, rfl⟩, ⟨_, List.mem_cons_self, rfl⟩, by decide⟩
  have hgranted := (hall ⟨1, .type⟩ (by decide) 2 1 0).1 hnames
  rw [effective_star (.inl rfl)] at hgranted
  rcases hgranted with ⟨value, -, hgrants⟩ | ⟨-, value, -, attr, hattr, -⟩
  · simp [Avtab.grants, data?, Keyed.Table.lookup, samplePolicy] at hgrants
  · exact absurd hattr (List.not_mem_nil)

end PolicyDb

end MagiskNative.Sepolicy
