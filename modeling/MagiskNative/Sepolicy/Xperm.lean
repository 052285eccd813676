import Mathlib.Tactic.Tauto
import MagiskNative.Lib.Bits
import MagiskNative.Sepolicy.Avtab
import MagiskNative.Sepolicy.Statement

/-!
# Extended permission rules

`add_xperm_rule` and the statements that reach it. Between two rules the table of a key is a driver
bitmap and up to 256 function bitmaps. What counts is the set of ioctl commands that they permit
together, and a rule acts on that set through its `InHull`: the interval it names when both ends
have one driver, and all commands of the drivers from end to end otherwise.
-/

namespace MagiskNative.Sepolicy

def ioctlDriver (x : UInt16) : UInt8 := (x >>> 8).toUInt8

def ioctlFunc (x : UInt16) : UInt8 := x.toUInt8

@[simp] theorem toNat_ioctlDriver (x : UInt16) : (ioctlDriver x).toNat = x.toNat / 256 := by
  have hx := x.toNat_lt
  have height : UInt16.toNat 8 % 16 = 8 := by decide
  rw [ioctlDriver, UInt16.toNat_toUInt8, UInt16.toNat_shiftRight, height, Nat.shiftRight_eq_div_pow]
  omega

@[simp] theorem toNat_ioctlFunc (x : UInt16) : (ioctlFunc x).toNat = x.toNat % 256 := by
  simp [ioctlFunc]

theorem ioctlDriver_eq_iff {x y : UInt16} :
    ioctlDriver x = ioctlDriver y ↔ x.toNat / 256 = y.toNat / 256 := by
  rw [← UInt8.toNat_inj, toNat_ioctlDriver, toNat_ioctlDriver]

namespace Avtab

/-- `add_xperm_rule` for one key: a range within a driver goes to its function bitmap, a longer one to the
bitmap of drivers. -/
def addXpermRule (t : Avtab) (key : AvtabKey XpermsEffect) (p : Xperm) : Avtab :=
  let driver := ioctlDriver p.low
  if p.reset then
    -- the function nodes go, and the driver node forgets its bits before it is filled
    let t := (List.range 256).foldl (fun t i => t.removeNode (.func key (UInt8.ofNat i))) t
    let t := t.updatePerms (.driver key) fun _ => 0
    let t := t.getDriverNode key
    let t := t.updatePerms (.driver key) fun _ => BitVec.allOnes 256
    if ioctlDriver p.low ≠ ioctlDriver p.high then
      t.updatePerms (.driver key)
        (Bits.clearRange · (ioctlDriver p.low).toNat (ioctlDriver p.high).toNat)
    else
      let t := t.getFuncNode key driver (BitVec.allOnes 256)
      let t := t.updatePerms (.driver key) (Bits.clearBit · driver.toNat)
      t.updatePerms (.func key driver)
        (Bits.clearRange · (ioctlFunc p.low).toNat (ioctlFunc p.high).toNat)
  else if ioctlDriver p.low ≠ ioctlDriver p.high then
    (t.getDriverNode key).updatePerms (.driver key)
      (Bits.setRange · (ioctlDriver p.low).toNat (ioctlDriver p.high).toNat)
  else
    (t.getFuncNode key driver 0).updatePerms (.func key driver)
      (Bits.setRange · (ioctlFunc p.low).toNat (ioctlFunc p.high).toNat)

/-- A command is permitted by its driver or by its function. -/
def permitted (t : Avtab) (key : AvtabKey XpermsEffect) (x : UInt16) : Bool :=
  ((t.perms? (.driver key)).getD 0).getLsbD (ioctlDriver x).toNat
    || ((t.perms? (.func key (ioctlDriver x))).getD 0).getLsbD (ioctlFunc x).toNat

end Avtab

/-- The commands that a rule acts on. -/
def Xperm.InHull (p : Xperm) (x : UInt16) : Prop :=
  if ioctlDriver p.low = ioctlDriver p.high then p.low ≤ x ∧ x ≤ p.high
  else ioctlDriver p.low ≤ ioctlDriver x ∧ ioctlDriver x ≤ ioctlDriver p.high

def Xperm.Covers (p : Xperm) (x : UInt16) : Prop := p.low ≤ x ∧ x ≤ p.high

instance (p : Xperm) (x : UInt16) : Decidable (p.InHull x) :=
  inferInstanceAs (Decidable (ite _ _ _))

instance (p : Xperm) (x : UInt16) : Decidable (p.Covers x) :=
  inferInstanceAs (Decidable (_ ∧ _))

theorem Xperm.inHull_of_covers {p : Xperm} {x : UInt16} (hx : p.Covers x) : p.InHull x := by
  obtain ⟨hlow, hhigh⟩ := hx
  unfold Xperm.InHull
  split
  · exact ⟨hlow, hhigh⟩
  · simp only [UInt16.le_iff_toNat_le, UInt8.le_iff_toNat_le, toNat_ioctlDriver] at *
    exact ⟨Nat.div_le_div_right hlow, Nat.div_le_div_right hhigh⟩

theorem Xperm.inHull_iff_of_eq {p : Xperm} (hdriver : ioctlDriver p.low = ioctlDriver p.high)
    {x : UInt16} :
    p.InHull x ↔ ioctlDriver x = ioctlDriver p.low ∧
      p.low.toNat % 256 ≤ x.toNat % 256 ∧ x.toNat % 256 ≤ p.high.toNat % 256 := by
  rw [Xperm.InHull, if_pos hdriver, ioctlDriver_eq_iff, UInt16.le_iff_toNat_le,
    UInt16.le_iff_toNat_le]
  rw [ioctlDriver_eq_iff] at hdriver
  omega

theorem Xperm.inHull_iff_of_ne {p : Xperm} (hdriver : ioctlDriver p.low ≠ ioctlDriver p.high)
    {x : UInt16} :
    p.InHull x ↔ p.low.toNat / 256 ≤ x.toNat / 256 ∧ x.toNat / 256 ≤ p.high.toNat / 256 := by
  rw [Xperm.InHull, if_neg hdriver, UInt8.le_iff_toNat_le, UInt8.le_iff_toNat_le,
    toNat_ioctlDriver, toNat_ioctlDriver, toNat_ioctlDriver]

namespace Avtab

section Step

variable (t : Avtab) (key : AvtabKey XpermsEffect) (p : Xperm)

theorem perms?_removeFuncNodes (l : List Nat) (slot : Slot) :
    (l.foldl (fun t i => removeNode t (.func key (UInt8.ofNat i))) t).perms? slot
      = if ∃ i ∈ l, slot = .func key (UInt8.ofNat i) then none else t.perms? slot := by
  induction l generalizing t with
  | nil => simp
  | cons i l ih =>
      rw [List.foldl_cons, ih, perms?_removeNode]
      by_cases htail : ∃ j ∈ l, slot = .func key (UInt8.ofNat j)
      · have hcons : ∃ j ∈ i :: l, slot = .func key (UInt8.ofNat j) := by
          obtain ⟨j, hj, heq⟩ := htail
          exact ⟨j, List.mem_cons_of_mem _ hj, heq⟩
        rw [if_pos htail, if_pos hcons]
      · rw [if_neg htail]
        by_cases hhead : slot = .func key (UInt8.ofNat i)
        · rw [if_pos hhead, if_pos ⟨i, List.mem_cons_self, hhead⟩]
        · rw [if_neg hhead, if_neg]
          rintro ⟨j, hj, heq⟩
          rcases List.mem_cons.1 hj with rfl | hj
          · exact hhead heq
          · exact htail ⟨j, hj, heq⟩

theorem perms?_removeAllFuncNodes_func (driver : UInt8) :
    ((List.range 256).foldl (fun t i => removeNode t (.func key (UInt8.ofNat i))) t).perms?
      (.func key driver) = none := by
  rw [perms?_removeFuncNodes, if_pos]
  exact ⟨driver.toNat, List.mem_range.2 driver.toNat_lt, by simp⟩

theorem perms?_removeAllFuncNodes_ne {slot : Slot} (hslot : ∀ driver, slot ≠ .func key driver) :
    ((List.range 256).foldl (fun t i => removeNode t (.func key (UInt8.ofNat i))) t).perms? slot
      = t.perms? slot := by
  rw [perms?_removeFuncNodes, if_neg]
  rintro ⟨i, -, heq⟩
  exact hslot _ heq

theorem perms?_addXpermRule_ne {slot : Slot} (hdriver : slot ≠ .driver key)
    (hfunc : ∀ driver, slot ≠ .func key driver) :
    (t.addXpermRule key p).perms? slot = t.perms? slot := by
  unfold addXpermRule
  split
  · split <;>
      simp [perms?_updatePerms, perms?_getDriverNode, perms?_getFuncNode,
        perms?_removeAllFuncNodes_ne t key hfunc, hdriver, hfunc]
  · split <;>
      simp [perms?_updatePerms, perms?_getDriverNode, perms?_getFuncNode, hdriver, hfunc]

theorem permitted_addXpermRule_ne {key' : AvtabKey XpermsEffect} (hkey : key' ≠ key) (x : UInt16) :
    (t.addXpermRule key p).permitted key' x = t.permitted key' x := by
  unfold permitted
  rw [perms?_addXpermRule_ne, perms?_addXpermRule_ne] <;> simp [hkey]

theorem perms?_grant_func (hgrant : p.reset = false)
    (hdriver : ioctlDriver p.low = ioctlDriver p.high) (slot : Slot) :
    (t.addXpermRule key p).perms? slot
      = if slot = .func key (ioctlDriver p.low) then
          some (Bits.setRange ((t.perms? slot).getD 0) (p.low.toNat % 256) (p.high.toNat % 256))
        else t.perms? slot := by
  have hne : ¬ (ioctlDriver p.low ≠ ioctlDriver p.high) := not_not.2 hdriver
  simp only [addXpermRule, hgrant, Bool.false_eq_true, if_false, if_neg hne]
  rw [perms?_updatePerms _ (by simp), perms?_getFuncNode, perms?_getFuncNode]
  by_cases hslot : slot = .func key (ioctlDriver p.low)
  · simp [hslot]
  · simp [hslot]

theorem perms?_grant_driver (hgrant : p.reset = false)
    (hdriver : ioctlDriver p.low ≠ ioctlDriver p.high) (slot : Slot) :
    (t.addXpermRule key p).perms? slot
      = if slot = .driver key then
          some (Bits.setRange ((t.perms? slot).getD 0) (p.low.toNat / 256) (p.high.toNat / 256))
        else t.perms? slot := by
  simp only [addXpermRule, hgrant, Bool.false_eq_true, if_false, if_pos hdriver]
  rw [perms?_updatePerms _ (by simp), perms?_getDriverNode, perms?_getDriverNode]
  by_cases hslot : slot = .driver key
  · simp [hslot]
  · simp [hslot]

theorem perms?_reset_func (hreset : p.reset = true)
    (hdriver : ioctlDriver p.low = ioctlDriver p.high) :
    (t.addXpermRule key p).perms? (.driver key)
        = some (Bits.clearBit (BitVec.allOnes 256) (p.low.toNat / 256)) ∧
      ∀ driver, (t.addXpermRule key p).perms? (.func key driver)
        = if driver = ioctlDriver p.low then
            some (Bits.clearRange (BitVec.allOnes 256) (p.low.toNat % 256) (p.high.toNat % 256))
          else none := by
  have hne : ¬ (ioctlDriver p.low ≠ ioctlDriver p.high) := not_not.2 hdriver
  simp only [addXpermRule, hreset, if_true, if_neg hne]
  refine ⟨?_, fun driver => ?_⟩
  · simp [perms?_updatePerms, perms?_getDriverNode, perms?_getFuncNode]
  · by_cases hsame : driver = ioctlDriver p.low
    · subst hsame
      simp [perms?_updatePerms, perms?_getDriverNode, perms?_getFuncNode,
        perms?_removeAllFuncNodes_func]
    · simp [perms?_updatePerms, perms?_getDriverNode, perms?_getFuncNode,
        perms?_removeAllFuncNodes_func, hsame]

theorem perms?_reset_driver (hreset : p.reset = true)
    (hdriver : ioctlDriver p.low ≠ ioctlDriver p.high) :
    (t.addXpermRule key p).perms? (.driver key)
        = some (Bits.clearRange (BitVec.allOnes 256) (p.low.toNat / 256) (p.high.toNat / 256)) ∧
      ∀ driver, (t.addXpermRule key p).perms? (.func key driver) = none := by
  simp only [addXpermRule, hreset, if_true, if_pos hdriver]
  refine ⟨?_, fun driver => ?_⟩
  · simp [perms?_updatePerms, perms?_getDriverNode]
  · simp [perms?_updatePerms, perms?_getDriverNode, perms?_removeAllFuncNodes_func]

/-- A granting rule adds its hull and nothing else. -/
theorem permitted_addXpermRule_grant (hgrant : p.reset = false) (x : UInt16) :
    (t.addXpermRule key p).permitted key x = true
      ↔ t.permitted key x = true ∨ p.InHull x := by
  have hx : x.toNat / 256 < 256 := by have := x.toNat_lt; omega
  by_cases hdriver : ioctlDriver p.low = ioctlDriver p.high
  · rw [Xperm.inHull_iff_of_eq hdriver]
    simp only [permitted, perms?_grant_func t key p hgrant hdriver, reduceCtorEq, if_false,
      Slot.func.injEq, true_and, Bool.or_eq_true, or_assoc]
    refine or_congr_right ?_
    by_cases hsame : ioctlDriver x = ioctlDriver p.low
    · rw [if_pos hsame, Option.getD_some, toNat_ioctlFunc,
        Bits.getLsbD_setRange _ _ _ (Nat.mod_lt _ (by omega))]
      simp [hsame]
    · simp [hsame]
  · rw [Xperm.inHull_iff_of_ne hdriver]
    simp only [permitted, perms?_grant_driver t key p hgrant hdriver, if_true, reduceCtorEq,
      if_false, Bool.or_eq_true, Option.getD_some, toNat_ioctlDriver,
      Bits.getLsbD_setRange _ _ _ hx]
    tauto

/-- A resetting rule permits all but its hull, whatever was there before. -/
theorem permitted_addXpermRule_reset (hreset : p.reset = true) (x : UInt16) :
    (t.addXpermRule key p).permitted key x = true ↔ ¬ p.InHull x := by
  have hx : x.toNat / 256 < 256 := by have := x.toNat_lt; omega
  have hfunc : x.toNat % 256 < 256 := Nat.mod_lt _ (by omega)
  by_cases hdriver : ioctlDriver p.low = ioctlDriver p.high
  · obtain ⟨hdriverNode, hfuncNode⟩ := perms?_reset_func t key p hreset hdriver
    rw [Xperm.inHull_iff_of_eq hdriver, permitted, hdriverNode, hfuncNode]
    simp only [Bool.or_eq_true, Option.getD_some, toNat_ioctlDriver, toNat_ioctlFunc,
      Bits.getLsbD_clearBit, BitVec.getLsbD_allOnes, hx, decide_true, Bool.true_and,
      Bool.not_eq_true', decide_eq_false_iff_not]
    by_cases hsame : ioctlDriver x = ioctlDriver p.low
    · have hnat := ioctlDriver_eq_iff.1 hsame
      simp only [hnat, not_true, false_or, hsame, if_true, Option.getD_some, Bits.getLsbD_clearRange,
        BitVec.getLsbD_allOnes, hfunc, decide_true, true_and]
    · have hnat : x.toNat / 256 ≠ p.low.toNat / 256 := fun h => hsame (ioctlDriver_eq_iff.2 h)
      simp only [hnat, not_false_iff, true_or, hsame, false_and]
  · obtain ⟨hdriverNode, hfuncNode⟩ := perms?_reset_driver t key p hreset hdriver
    rw [Xperm.inHull_iff_of_ne hdriver, permitted, hdriverNode, hfuncNode]
    simp only [Bool.or_eq_true, Option.getD_some, Option.getD_none, toNat_ioctlDriver,
      Bits.getLsbD_clearRange, BitVec.getLsbD_allOnes, hx, decide_true, true_and,
      BitVec.ofNat_eq_ofNat, BitVec.getLsbD_zero, Bool.false_eq_true, or_false]

end Step

section Run

variable (t : Avtab) (key : AvtabKey XpermsEffect) (xperms : List Xperm)

theorem permitted_foldl_ne {key' : AvtabKey XpermsEffect} (hkey : key' ≠ key) (x : UInt16) :
    (xperms.foldl (addXpermRule · key ·) t).permitted key' x = t.permitted key' x := by
  induction xperms generalizing t with
  | nil => rfl
  | cons p xperms ih => rw [List.foldl_cons, ih, permitted_addXpermRule_ne t key p hkey]

/-- Granting rules together add the union of their hulls. -/
theorem permitted_foldl_grant (hgrant : ∀ p ∈ xperms, p.reset = false) (x : UInt16) :
    (xperms.foldl (addXpermRule · key ·) t).permitted key x = true
      ↔ t.permitted key x = true ∨ ∃ p ∈ xperms, p.InHull x := by
  induction xperms generalizing t with
  | nil => simp
  | cons p xperms ih =>
      have hhead := hgrant p List.mem_cons_self
      have htail : ∀ q ∈ xperms, q.reset = false := fun q hq => hgrant q (List.mem_cons_of_mem p hq)
      rw [List.foldl_cons, ih _ htail, permitted_addXpermRule_grant t key p hhead, or_assoc]
      simp only [List.mem_cons, exists_eq_or_imp]

theorem permitted_foldl_reset (hne : xperms ≠ []) (hreset : (xperms.getLast hne).reset = true)
    (x : UInt16) :
    (xperms.foldl (addXpermRule · key ·) t).permitted key x = true
      ↔ ¬ (xperms.getLast hne).InHull x := by
  have hsplit := List.dropLast_append_getLast hne
  conv_lhs => rw [← hsplit]
  rw [List.foldl_append, List.foldl_cons, List.foldl_nil,
    permitted_addXpermRule_reset _ _ _ hreset]

end Run

end Avtab

end MagiskNative.Sepolicy
