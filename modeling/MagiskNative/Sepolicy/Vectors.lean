import MagiskNative.Sepolicy.Grammar
import MagiskNative.Sepolicy.Rule

/-!
# Access vectors under sequences of rules

The table stands for a vector under every key, most of which are not stored. Statements that grant, deny or
audit one permission of a class move one bit of some of these vectors.
-/

namespace MagiskNative.Sepolicy

def AvAction.effect : AvAction → RuleEffect
  | allow => .allowed
  | deny => .allowed
  | auditAllow => .auditAllow
  | dontAudit => .auditDeny

def AvAction.invert : AvAction → Bool
  | allow => false
  | deny => true
  | auditAllow => false
  | dontAudit => true

/-- A statement on one permission of one class. No name for the source or the target means all. -/
structure AvRule where
  action : AvAction
  src : List String
  tgt : List String
  cls : String
  perm : String
  perm_ne : perm ≠ ""

namespace PolicyDb

variable (tables : PermTables) (db : PolicyDb)

def execRule (r : AvRule) : PolicyDb :=
  match r.action with
  | .allow => db.allow tables r.src r.tgt [r.cls] [r.perm]
  | .deny => db.deny tables r.src r.tgt [r.cls] [r.perm]
  | .auditAllow => db.auditallow tables r.src r.tgt [r.cls] [r.perm]
  | .dontAudit => db.dontaudit tables r.src r.tgt [r.cls] [r.perm]

def execRules (rules : List AvRule) : PolicyDb := rules.foldl (execRule tables) db

def permission (c p : String) : Option (ClassDatum × PermDatum) := do
  let cls ← (findName db.classes c).join
  let perm ← tables.find cls p
  return (cls, perm)

def typesNamed (effect : RuleEffect) (invert : Bool) (name : String) : List TypeDatum :=
  match findName db.types name with
  | none => []
  | some type => db.reached effect invert type

def keysOf (r : AvRule) (cls : ClassDatum) : List (AvtabKey RuleEffect) :=
  let types := fun names => (expandNames names).flatMap (db.typesNamed r.action.effect r.action.invert)
  (types r.src).flatMap fun s => (types r.tgt).map fun t => ruleKey s t cls r.action.effect

def touchedKeys (r : AvRule) : List (AvtabKey RuleEffect) :=
  match db.permission tables r.cls r.perm with
  | none => []
  | some (cls, _) => db.keysOf r cls

def touchedBit (r : AvRule) : UInt32 :=
  match db.permission tables r.cls r.perm with
  | none => 0
  | some (_, perm) => perm.bit

end PolicyDb

namespace PolicyDb

variable {tables : PermTables} {db db' : PolicyDb}

theorem Edits.of_none {named : AvtabKey RuleEffect → Prop} {f : UInt32 → UInt32}
    (hnone : ∀ key, ¬ named key) : Edits db db named f :=
  ⟨rfl, rfl, fun key h => absurd h (hnone key), fun key h => absurd h (hnone key), fun _ _ => rfl⟩

theorem permission_congr (hclasses : db'.classes = db.classes) (c p : String) :
    db'.permission tables c p = db.permission tables c p := by
  rw [permission, permission, hclasses]

theorem typesNamed_congr (htypes : db'.types = db.types) (effect : RuleEffect) (invert : Bool)
    (name : String) : db'.typesNamed effect invert name = db.typesNamed effect invert name := by
  simp only [typesNamed, htypes, reached_congr htypes]

theorem keysOf_congr (htypes : db'.types = db.types) (r : AvRule) (cls : ClassDatum) :
    db'.keysOf r cls = db.keysOf r cls := by
  have hnamed : db'.typesNamed r.action.effect r.action.invert
      = db.typesNamed r.action.effect r.action.invert :=
    funext (typesNamed_congr htypes _ _)
  rw [keysOf, keysOf, hnamed]

theorem edits_addRuleNamed (db : PolicyDb) (s t c : String) {p : String} (hp : p ≠ "")
    {cls : ClassDatum} {perm : PermDatum} (hpermission : db.permission tables c p = some (cls, perm))
    (effect : RuleEffect) (invert : Bool) :
    Edits db (db.addRuleNamed tables s t c p effect invert).1 (fun key =>
      ∃ src ∈ db.typesNamed effect invert s, ∃ tgt ∈ db.typesNamed effect invert t,
        key = ruleKey src tgt cls effect) (Avtab.changeData (some perm) invert) := by
  obtain ⟨hcls, hperm⟩ : findName db.classes c = some (some cls) ∧ tables.find cls p = some perm := by
    simp only [permission, Option.bind_eq_bind, Option.bind_eq_some_iff, Option.join_eq_some_iff,
      Option.pure_def, Option.some.injEq, Prod.mk.injEq] at hpermission
    obtain ⟨cls', hcls, perm', hperm, rfl, rfl⟩ := hpermission
    exact ⟨hcls, hperm⟩
  unfold addRuleNamed typesNamed
  cases hs : findName db.types s with
  | none => exact Edits.of_none (by simp)
  | some src =>
      cases ht : findName db.types t with
      | none => exact Edits.of_none (by simp)
      | some tgt =>
          simp only [hcls, if_neg hp, Option.bind_some, hperm]
          refine (edits_addRule db src tgt (some cls) (some perm) effect invert).congr fun key => ?_
          simp [classesOf]

theorem addRuleNamed_of_permission_none {db : PolicyDb} {c p : String} (hp : p ≠ "")
    (hnone : db.permission tables c p = none) (s t : String) (effect : RuleEffect) (invert : Bool) :
    (db.addRuleNamed tables s t c p effect invert).1 = db := by
  have hfind : ∀ cls, findName db.classes c = some cls →
      (cls.bind fun cls => tables.find cls p) = none := by
    rintro (- | cls) hcls
    · rfl
    · cases hperm : tables.find cls p with
      | none => exact hperm
      | some perm => simp [permission, hcls, hperm] at hnone
  unfold addRuleNamed
  cases findName db.types s with
  | none => rfl
  | some src =>
      cases findName db.types t with
      | none => rfl
      | some tgt =>
          cases hcls : findName db.classes c with
          | none => rfl
          | some cls => simp only [if_neg hp, hfind cls hcls]

theorem execRule_eq (db : PolicyDb) (r : AvRule) :
    db.execRule tables r
      = db.expandRule tables r.src r.tgt [r.cls] [r.perm] r.action.effect r.action.invert := by
  unfold execRule
  cases r.action <;> rfl

theorem expandRule_one (db : PolicyDb) (src tgt : List String) (c p : String) (effect : RuleEffect)
    (invert : Bool) :
    db.expandRule tables src tgt [c] [p] effect invert =
      (expandNames src).foldl (fun db s =>
        (expandNames tgt).foldl (fun db t => (db.addRuleNamed tables s t c p effect invert).1) db) db := rfl

theorem edits_execRule (db : PolicyDb) (r : AvRule) {cls : ClassDatum} {perm : PermDatum}
    (hpermission : db.permission tables r.cls r.perm = some (cls, perm)) :
    Edits db (db.execRule tables r) (· ∈ db.keysOf r cls)
      (Avtab.changeData (some perm) r.action.invert) := by
  have hidem := changeData_idem (some perm) r.action.invert
  have htargets : ∀ db', db'.types = db.types → db'.classes = db.classes → ∀ s,
      Edits db' ((expandNames r.tgt).foldl (fun db t =>
        (db.addRuleNamed tables s t r.cls r.perm r.action.effect r.action.invert).1) db')
        (fun key => ∃ t ∈ expandNames r.tgt, ∃ src ∈ db.typesNamed r.action.effect r.action.invert s,
          ∃ tgt ∈ db.typesNamed r.action.effect r.action.invert t, key = ruleKey src tgt cls r.action.effect)
        (Avtab.changeData (some perm) r.action.invert) := by
    intro db' htypes hclasses s
    refine Edits.foldl hidem fun db'' htypes' hclasses' t _ => ?_
    rw [← typesNamed_congr (htypes'.trans htypes), ← typesNamed_congr (htypes'.trans htypes)]
    refine edits_addRuleNamed db'' s t r.cls r.perm_ne ?_ r.action.effect r.action.invert
    rw [permission_congr (hclasses'.trans hclasses), hpermission]
  rw [execRule_eq, expandRule_one]
  refine (Edits.foldl hidem fun db' htypes hclasses s _ => htargets db' htypes hclasses s).congr fun key => ?_
  simp only [keysOf, List.mem_flatMap, List.mem_map]
  constructor
  · rintro ⟨s, hs, t, ht, src, hsrc, tgt, htgt, rfl⟩
    exact ⟨src, ⟨s, hs, hsrc⟩, tgt, ⟨t, ht, htgt⟩, rfl⟩
  · rintro ⟨src, ⟨s, hs, hsrc⟩, tgt, ⟨t, ht, htgt⟩, rfl⟩
    exact ⟨s, hs, t, ht, src, hsrc, tgt, htgt, rfl⟩

theorem execRule_of_permission_none {r : AvRule} (hnone : db.permission tables r.cls r.perm = none) :
    db.execRule tables r = db := by
  have hfix : ∀ {α : Type} (step : PolicyDb → α → PolicyDb) (xs : List α),
      (∀ x, step db x = db) → xs.foldl step db = db := by
    intro α step xs hstep
    induction xs with
    | nil => rfl
    | cons x xs ih => rw [List.foldl_cons, hstep, ih]
  rw [execRule_eq, expandRule_one]
  refine hfix _ _ fun s => hfix _ _ fun t => ?_
  exact addRuleNamed_of_permission_none r.perm_ne hnone s t r.action.effect r.action.invert

/-- A granting statement sets its bit and the others clear it, at the keys it goes to and nowhere else; and
none of these keys is left with a vector that says nothing. -/
structure Moves (tables : PermTables) (db db' : PolicyDb) (r : AvRule) : Prop where
  types : db'.types = db.types
  classes : db'.classes = db.classes
  bits : ∀ key b, (db'.teAvtab.vector key).toBitVec.getLsbD b =
    if key ∈ db.touchedKeys tables r ∧ (db.touchedBit tables r).toBitVec.getLsbD b = true then !r.action.invert
    else (db.teAvtab.vector key).toBitVec.getLsbD b
  stored : ∀ key ∈ db.touchedKeys tables r, db'.teAvtab.data? key ≠ some (freshData key.specified)
  kept : ∀ key ∉ db.touchedKeys tables r, db'.teAvtab.data? key = db.teAvtab.data? key

theorem moves_execRule (tables : PermTables) (db : PolicyDb) (r : AvRule) :
    Moves tables db (db.execRule tables r) r := by
  cases hpermission : db.permission tables r.cls r.perm with
  | none =>
      have hkeys : db.touchedKeys tables r = [] := by rw [touchedKeys, hpermission]
      rw [execRule_of_permission_none hpermission]
      exact ⟨rfl, rfl, by simp [hkeys], by simp [hkeys], fun _ _ => rfl⟩
  | some target =>
      obtain ⟨cls, perm⟩ := target
      have hkeys : db.touchedKeys tables r = db.keysOf r cls := by rw [touchedKeys, hpermission]
      have hbit : db.touchedBit tables r = perm.bit := by rw [touchedBit, hpermission]
      have hedits := edits_execRule db r hpermission
      refine ⟨hedits.types, hedits.classes, fun key b => ?_, ?_, ?_⟩
      · rw [hkeys, hbit]
        by_cases hkey : key ∈ db.keysOf r cls
        · rw [hedits.vector key hkey, Avtab.changeData_eq, permMask]
          by_cases hb : perm.bit.toBitVec.getLsbD b = true
          · cases r.action.invert <;> simp [hkey, hb]
          · cases r.action.invert with
            | false => simp [hkey, hb]
            | true => simpa [hkey, hb] using BitVec.lt_of_getLsbD
        · rw [if_neg fun h => hkey h.1, Avtab.vector, hedits.kept key hkey, Avtab.vector]
      · rw [hkeys]
        exact hedits.stored
      · rw [hkeys]
        exact hedits.kept

theorem Moves.touchedKeys_eq {r : AvRule} (hmoves : Moves tables db db' r) (r' : AvRule) :
    db'.touchedKeys tables r' = db.touchedKeys tables r' := by
  simp only [touchedKeys, permission_congr hmoves.classes, keysOf_congr hmoves.types]

theorem stored_execRules (tables : PermTables) (db : PolicyDb) (rules : List AvRule) :
    ∀ r ∈ rules, ∀ key ∈ db.touchedKeys tables r,
      (db.execRules tables rules).teAvtab.data? key ≠ some (freshData key.specified) := by
  -- The induction is on the statements from the last one: it has been at the key or has left it alone.
  have hrun : ∀ rules : List AvRule, (∀ r, (db.execRules tables rules).touchedKeys tables r
        = db.touchedKeys tables r) ∧
      ∀ r ∈ rules, ∀ key ∈ db.touchedKeys tables r,
        (db.execRules tables rules).teAvtab.data? key ≠ some (freshData key.specified) := by
    intro rules
    induction rules using List.reverseRecOn with
    | nil => exact ⟨fun _ => rfl, by simp⟩
    | append_singleton rules last ih =>
        obtain ⟨hsame, hstored⟩ := ih
        have hmoves := moves_execRule tables (db.execRules tables rules) last
        have hrun : db.execRules tables (rules ++ [last]) = (db.execRules tables rules).execRule tables last := by
          rw [execRules, List.foldl_append]
          rfl
        rw [hrun]
        refine ⟨fun r => (hmoves.touchedKeys_eq r).trans (hsame r), fun r hr key hkey => ?_⟩
        by_cases hlast : key ∈ (db.execRules tables rules).touchedKeys tables last
        · exact hmoves.stored key hlast
        · rw [hmoves.kept key hlast]
          rcases List.mem_append.1 hr with hr | hr
          · exact hstored r hr key hkey
          · rw [List.mem_singleton.1 hr, ← hsame] at hkey
            exact absurd hkey hlast
  exact (hrun rules).2

theorem countP_slot_le_one (t : Avtab) (slot : Slot) :
    t.entries.countP (fun node => node.slot? = some slot) ≤ 1 := by
  have hcount := List.nodup_iff_count_le_one.1 t.unique slot
  rw [List.count_filterMap] at hcount
  simpa only [beq_eq_decide] using hcount

theorem mem_typesNamed_deny {type : TypeDatum} (htype : type ∈ db.types.map Prod.snd) :
    type ∈ (expandNames []).flatMap (db.typesNamed .allowed true) := by
  have hfind : findName db.types "" = some none := if_pos rfl
  simpa [expandNames, typesNamed, hfind, reached, wildcard, stripAv] using htype

/-- **Access vectors.** After any statements, the next one moves its bit at the keys it goes to and changes
nothing else; no key that any of them went to is stored with a vector that says nothing; every key has one
node at most; and a denial for all sources and targets takes the permission from every pair of types. -/
theorem vectors_execRules (tables : PermTables) (db : PolicyDb) (rules : List AvRule) (r : AvRule) :
    Moves tables (db.execRules tables rules) (db.execRules tables (rules ++ [r])) r ∧
      (∀ r' ∈ rules ++ [r], ∀ key ∈ db.touchedKeys tables r',
        (db.execRules tables (rules ++ [r])).teAvtab.data? key ≠ some (freshData key.specified)) ∧
      (∀ key, (db.execRules tables (rules ++ [r])).teAvtab.entries.countP
        (fun node => node.slot? = some (.rule key)) ≤ 1) ∧
      (r.action = .deny ∧ r.src = [] ∧ r.tgt = [] →
        ∀ cls perm, (db.execRules tables rules).permission tables r.cls r.perm = some (cls, perm) →
          ∀ s ∈ (db.execRules tables rules).types.map Prod.snd,
          ∀ t ∈ (db.execRules tables rules).types.map Prod.snd, ∀ b, perm.bit.toBitVec.getLsbD b = true →
            ((db.execRules tables (rules ++ [r])).teAvtab.vector
              (ruleKey s t cls .allowed)).toBitVec.getLsbD b = false) := by
  have hrun : db.execRules tables (rules ++ [r]) = (db.execRules tables rules).execRule tables r := by
    rw [execRules, List.foldl_append]
    rfl
  have hmoves := moves_execRule tables (db.execRules tables rules) r
  refine ⟨hrun ▸ hmoves, stored_execRules tables db _, fun key => countP_slot_le_one _ _, ?_⟩
  rintro ⟨haction, hsrc, htgt⟩ cls perm hpermission s hs t ht b hb
  have hkey : ruleKey s t cls .allowed ∈ (db.execRules tables rules).touchedKeys tables r := by
    simp only [touchedKeys, hpermission, keysOf, haction, hsrc, htgt, List.mem_flatMap, List.mem_map]
    exact ⟨s, List.mem_flatMap.1 (mem_typesNamed_deny hs), t, List.mem_flatMap.1 (mem_typesNamed_deny ht), rfl⟩
  have hbit : (db.execRules tables rules).touchedBit tables r = perm.bit := by
    rw [touchedBit, hpermission]
  rw [hrun, hmoves.bits, hbit, if_pos ⟨hkey, hb⟩, haction]
  rfl

end PolicyDb

end MagiskNative.Sepolicy
