import Mathlib.Data.BitVec
import MagiskNative.Lib.Keyed

/-!
# The access vector table

`te_avtab` as `sepolicy.cpp` sees it. The nodes of one key are visited in the order of the list, and a new
node goes in front of the others of its key, so hashing and the order of different keys play no part.
-/

namespace MagiskNative.Sepolicy

inductive XpermsEffect where
  | allowed
  | auditAllow
  | dontAudit
  deriving DecidableEq, Repr

inductive RuleEffect where
  | allowed
  | auditAllow
  | auditDeny
  | transition
  | member
  | change
  deriving DecidableEq, Repr

structure AvtabKey (Effect : Type) where
  sourceType : UInt16
  targetType : UInt16
  targetClass : UInt16
  specified : Effect
  deriving DecidableEq, Repr

inductive XpermsSpecified where
  | ioctlFunction
  | ioctlDriver
  | nlmsg
  deriving DecidableEq, Repr

structure ExtendedPerms where
  specified : XpermsSpecified
  driver : UInt8
  perms : BitVec 256
  deriving DecidableEq, Repr

/-- The datum is a union in the source, told apart by the key's `AVTAB_XPERMS` bits. -/
inductive AvtabNode where
  | rule (key : AvtabKey RuleEffect) (data : UInt32)
  | xperms (key : AvtabKey XpermsEffect) (datum : ExtendedPerms)
  deriving DecidableEq, Repr

/-- Each key may contain one driver node and 256 function nodes. -/
inductive Slot where
  | rule (key : AvtabKey RuleEffect)
  | driver (key : AvtabKey XpermsEffect)
  | func (key : AvtabKey XpermsEffect) (driver : UInt8)
  deriving DecidableEq, Repr

def AvtabNode.slot? : AvtabNode → Option Slot
  | .rule key _ => some (.rule key)
  | .xperms key ⟨.ioctlDriver, _, _⟩ => some (.driver key)
  | .xperms key ⟨.ioctlFunction, driver, _⟩ => some (.func key driver)
  | .xperms _ ⟨.nlmsg, _, _⟩ => none

def AvtabNode.perms : AvtabNode → BitVec 256
  | .rule _ _ => 0
  | .xperms _ datum => datum.perms

def AvtabNode.setPerms (node : AvtabNode) (f : BitVec 256 → BitVec 256) : AvtabNode :=
  match node with
  | .rule key data => .rule key data
  | .xperms key datum => .xperms key { datum with perms := f datum.perms }

theorem AvtabNode.slot?_setPerms (node : AvtabNode) (f : BitVec 256 → BitVec 256) :
    (node.setPerms f).slot? = node.slot? := by
  rcases node with ⟨key, data⟩ | ⟨key, ⟨_ | _ | _, driver, perms⟩⟩ <;> rfl

abbrev Avtab := Keyed.Table AvtabNode.slot?

namespace Avtab

variable (t : Avtab) (slot : Slot)

def perms? : Option (BitVec 256) :=
  (t.lookup slot).map AvtabNode.perms

def removeNode : Avtab := t.remove slot

def updatePerms (f : BitVec 256 → BitVec 256) : Avtab :=
  t.update slot (AvtabNode.setPerms · f) fun node hnode => by
    rw [AvtabNode.slot?_setPerms, hnode]

/-- `insert_avtab_node` with a fresh datum, unless the slot of `node_list` is taken. -/
def getNode (node : AvtabNode) (hslot : node.slot? = some slot) : Avtab :=
  if habsent : t.lookup slot = none then t.insert slot node hslot habsent else t

variable (key : AvtabKey XpermsEffect)

def getDriverNode : Avtab :=
  t.getNode (.driver key) (.xperms key ⟨.ioctlDriver, 0, 0⟩) rfl

def getFuncNode (driver : UInt8) (fill : BitVec 256) : Avtab :=
  t.getNode (.func key driver) (.xperms key ⟨.ioctlFunction, driver, fill⟩) rfl

theorem perms?_removeNode (slot slot' : Slot) :
    (t.removeNode slot).perms? slot' = if slot' = slot then none else t.perms? slot' := by
  simp only [perms?, removeNode, Keyed.Table.lookup_remove]
  split <;> rfl

theorem perms_setPerms {node : AvtabNode} {slot : Slot} (hslot : node.slot? = some slot)
    (hrule : ∀ key, slot ≠ .rule key) (f : BitVec 256 → BitVec 256) :
    (node.setPerms f).perms = f node.perms := by
  cases node with
  | rule key data =>
      cases hslot
      exact absurd rfl (hrule key)
  | xperms key datum => rfl

theorem perms?_updatePerms {slot : Slot} (hrule : ∀ key, slot ≠ .rule key)
    (slot' : Slot) (f : BitVec 256 → BitVec 256) :
    (t.updatePerms slot f).perms? slot'
      = if slot' = slot then (t.perms? slot).map f else t.perms? slot' := by
  simp only [perms?, updatePerms, Keyed.Table.lookup_update]
  by_cases hslot : slot' = slot
  · rw [if_pos hslot, if_pos hslot]
    cases hlookup : t.lookup slot with
    | none => rfl
    | some node =>
        simp [perms_setPerms (Keyed.Table.key?_of_lookup hlookup) hrule]
  · rw [if_neg hslot, if_neg hslot]

theorem lookup_getNode (node : AvtabNode) (hslot : node.slot? = some slot) (slot' : Slot) :
    (t.getNode slot node hslot).lookup slot'
      = if slot' = slot then some ((t.lookup slot).getD node) else t.lookup slot' := by
  unfold getNode
  by_cases habsent : t.lookup slot = none
  · rw [dif_pos habsent, Keyed.Table.lookup_insert, habsent, Option.getD_none]
  · obtain ⟨found, hfound⟩ := Option.ne_none_iff_exists'.1 habsent
    rw [dif_neg habsent]
    split
    · rename_i heq
      rw [heq, hfound, Option.getD_some]
    · rfl

theorem perms?_getNode (node : AvtabNode) (hslot : node.slot? = some slot) (slot' : Slot) :
    (t.getNode slot node hslot).perms? slot'
      = if slot' = slot then some ((t.perms? slot).getD node.perms) else t.perms? slot' := by
  rw [perms?, lookup_getNode, perms?, perms?]
  split
  · cases t.lookup slot <;> rfl
  · rfl

theorem perms?_getDriverNode : (t.getDriverNode key).perms? slot
      = if slot = .driver key then some ((t.perms? (.driver key)).getD 0) else t.perms? slot :=
  perms?_getNode t _ _ rfl slot

theorem perms?_getFuncNode (driver : UInt8) (fill : BitVec 256) (slot : Slot) :
    (t.getFuncNode key driver fill).perms? slot
      = if slot = .func key driver then some ((t.perms? (.func key driver)).getD fill)
        else t.perms? slot :=
  perms?_getNode t _ _ rfl slot

end Avtab

end MagiskNative.Sepolicy
