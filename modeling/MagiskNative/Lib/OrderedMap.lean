import Std.Data.ExtTreeMap
import Mathlib.Tactic

/-!
# Ordered maps

Two facts about ordered maps that programs rely on when they compare or merge them: walking two
sorted lists of entries side by side visits every key once, with what each side has for it, and
storing a list of entries leaves under each key one of the entries of the list.
-/

namespace OrderedMap

open Std

section Join

variable {κ α β : Type} [Ord κ]

/-- Every key of either list, with the values of both sides. -/
def fullJoin : List (κ × α) → List (κ × β) → List (κ × Option α × Option β)
  | [], [] => []
  | (k, x) :: ls, [] => (k, some x, none) :: fullJoin ls []
  | [], (k, y) :: rs => (k, none, some y) :: fullJoin [] rs
  | (kl, x) :: ls, (kr, y) :: rs =>
      match compare kl kr with
      | .lt => (kl, some x, none) :: fullJoin ls ((kr, y) :: rs)
      | .gt => (kr, none, some y) :: fullJoin ((kl, x) :: ls) rs
      | .eq => (kl, some x, some y) :: fullJoin ls rs

/-- `value` is what a list of entries has under a key. -/
def Lists (entries : List (κ × α)) (key : κ) (value : Option α) : Prop :=
  ∀ x, value = some x ↔ (key, x) ∈ entries

abbrev Sorted (entries : List (κ × α)) : Prop :=
  entries.Pairwise fun a b => compare a.1 b.1 = .lt

omit [Ord κ] in
theorem lists_nil {key : κ} {value : Option α} : Lists [] key value ↔ value = none := by
  simp [Lists, Option.eq_none_iff_forall_ne_some]

omit [Ord κ] in
theorem lists_cons_of_ne {key k : κ} {x : α} {entries : List (κ × α)} {value : Option α}
    (hne : key ≠ k) : Lists ((k, x) :: entries) key value ↔ Lists entries key value := by
  simp [Lists, hne]

variable [TransOrd κ] [LawfulEqOrd κ]

omit [LawfulEqOrd κ] in
theorem ne_of_compare_lt {a b : κ} (hlt : compare a b = .lt) : a ≠ b := by
  rintro rfl
  have hself : compare a a = .eq := ReflCmp.compare_self
  rw [hself] at hlt
  cases hlt

omit [LawfulEqOrd κ] in
theorem lists_of_lt {key : κ} {entries : List (κ × α)} {value : Option α}
    (hlt : ∀ e ∈ entries, compare key e.1 = .lt) : Lists entries key value ↔ value = none := by
  have habsent : ∀ x, (key, x) ∉ entries := fun x hmem => ne_of_compare_lt (hlt _ hmem) rfl
  simp [Lists, habsent, Option.eq_none_iff_forall_ne_some]

omit [LawfulEqOrd κ] in
theorem lists_cons_self {k : κ} {x : α} {entries : List (κ × α)} {value : Option α}
    (hsorted : Sorted ((k, x) :: entries)) :
    Lists ((k, x) :: entries) k value ↔ value = some x := by
  have habsent : ∀ y, (k, y) ∉ entries := fun y hmem =>
    ne_of_compare_lt (List.rel_of_pairwise_cons hsorted hmem) rfl
  constructor
  · intro hlists
    exact (hlists x).2 List.mem_cons_self
  · rintro rfl y
    simp [habsent, eq_comm]

omit [LawfulEqOrd κ] in
theorem lt_of_lt_head {key k : κ} {x : α} {entries : List (κ × α)}
    (hsorted : Sorted ((k, x) :: entries)) (hlt : compare key k = .lt) :
    ∀ e ∈ (k, x) :: entries, compare key e.1 = .lt := by
  intro e hmem
  rcases List.mem_cons.1 hmem with rfl | hmem
  · exact hlt
  · exact TransCmp.lt_trans hlt (List.rel_of_pairwise_cons hsorted hmem)

/-- **What the walk visits.** A key comes up exactly if one of the two sides has it, and it comes up
with what both sides have for it. -/
theorem mem_fullJoin {ls : List (κ × α)} {rs : List (κ × β)} (hls : Sorted ls) (hrs : Sorted rs)
    {key : κ} {a : Option α} {b : Option β} :
    (key, a, b) ∈ fullJoin ls rs ↔
      Lists ls key a ∧ Lists rs key b ∧ (a.isSome ∨ b.isSome) := by
  induction ls, rs using fullJoin.induct with
  | case1 =>
      rw [fullJoin, lists_nil, lists_nil]
      simp +contextual
  | case2 k x ls ih =>
      rw [fullJoin, List.mem_cons, ih hls.of_cons hrs, lists_nil]
      by_cases hkey : key = k
      · subst hkey
        rw [lists_cons_self hls, lists_of_lt fun e hmem => List.rel_of_pairwise_cons hls hmem]
        aesop
      · rw [lists_cons_of_ne hkey]
        simp [hkey]
  | case3 k y rs ih =>
      rw [fullJoin, List.mem_cons, ih hls hrs.of_cons, lists_nil]
      by_cases hkey : key = k
      · subst hkey
        rw [lists_cons_self hrs, lists_of_lt fun e hmem => List.rel_of_pairwise_cons hrs hmem]
        aesop
      · rw [lists_cons_of_ne hkey]
        simp [hkey]
  | case4 kl x ls kr y rs hcmp ih =>
      rw [fullJoin, hcmp, List.mem_cons, ih hls.of_cons hrs]
      by_cases hkey : key = kl
      · subst hkey
        rw [lists_cons_self hls, lists_of_lt fun e hmem => List.rel_of_pairwise_cons hls hmem,
          lists_of_lt (lt_of_lt_head hrs hcmp)]
        aesop
      · rw [lists_cons_of_ne hkey]
        simp [hkey]
  | case5 kl x ls kr y rs hcmp ih =>
      rw [fullJoin, hcmp, List.mem_cons, ih hls hrs.of_cons]
      have hgt : compare kr kl = .lt := OrientedCmp.lt_of_gt hcmp
      by_cases hkey : key = kr
      · subst hkey
        rw [lists_cons_self hrs, lists_of_lt fun e hmem => List.rel_of_pairwise_cons hrs hmem,
          lists_of_lt (lt_of_lt_head hls hgt)]
        aesop
      · rw [lists_cons_of_ne hkey]
        simp [hkey]
  | case6 kl x ls kr y rs hcmp ih =>
      obtain rfl : kl = kr := LawfulEqOrd.eq_of_compare hcmp
      rw [fullJoin, hcmp, List.mem_cons, ih hls.of_cons hrs.of_cons]
      by_cases hkey : key = kl
      · subst hkey
        rw [lists_cons_self hls, lists_cons_self hrs,
          lists_of_lt fun e hmem => List.rel_of_pairwise_cons hls hmem,
          lists_of_lt fun e hmem => List.rel_of_pairwise_cons hrs hmem]
        aesop
      · rw [lists_cons_of_ne hkey, lists_cons_of_ne hkey]
        simp [hkey]

theorem lt_fullJoin {ls : List (κ × α)} {rs : List (κ × β)} (hls : Sorted ls) (hrs : Sorted rs)
    {k : κ} (hltl : ∀ e ∈ ls, compare k e.1 = .lt) (hltr : ∀ e ∈ rs, compare k e.1 = .lt) :
    ∀ e ∈ fullJoin ls rs, compare k e.1 = .lt := by
  rintro ⟨key, a, b⟩ hmem
  obtain ⟨ha, hb, hab⟩ := (mem_fullJoin hls hrs).1 hmem
  rcases hab with hsome | hsome
  · obtain ⟨x, hx⟩ := Option.isSome_iff_exists.1 hsome
    exact hltl _ ((ha x).1 hx)
  · obtain ⟨y, hy⟩ := Option.isSome_iff_exists.1 hsome
    exact hltr _ ((hb y).1 hy)

theorem pairwise_fullJoin {ls : List (κ × α)} {rs : List (κ × β)} (hls : Sorted ls)
    (hrs : Sorted rs) : (fullJoin ls rs).Pairwise fun a b => compare a.1 b.1 = .lt := by
  induction ls, rs using fullJoin.induct with
  | case1 =>
      rw [fullJoin]
      exact List.Pairwise.nil
  | case2 k x ls ih =>
      rw [fullJoin, List.pairwise_cons]
      refine ⟨lt_fullJoin hls.of_cons hrs ?_ (by simp), ih hls.of_cons hrs⟩
      exact fun e he => List.rel_of_pairwise_cons hls he
  | case3 k y rs ih =>
      rw [fullJoin, List.pairwise_cons]
      refine ⟨lt_fullJoin hls hrs.of_cons (by simp) ?_, ih hls hrs.of_cons⟩
      exact fun e he => List.rel_of_pairwise_cons hrs he
  | case4 kl x ls kr y rs hcmp ih =>
      rw [fullJoin, hcmp, List.pairwise_cons]
      refine ⟨lt_fullJoin hls.of_cons hrs ?_ (lt_of_lt_head hrs hcmp), ih hls.of_cons hrs⟩
      exact fun e he => List.rel_of_pairwise_cons hls he
  | case5 kl x ls kr y rs hcmp ih =>
      rw [fullJoin, hcmp, List.pairwise_cons]
      have hgt : compare kr kl = .lt := OrientedCmp.lt_of_gt hcmp
      refine ⟨lt_fullJoin hls hrs.of_cons (lt_of_lt_head hls hgt) ?_, ih hls hrs.of_cons⟩
      exact fun e he => List.rel_of_pairwise_cons hrs he
  | case6 kl x ls kr y rs hcmp ih =>
      obtain rfl : kl = kr := LawfulEqOrd.eq_of_compare hcmp
      rw [fullJoin, hcmp, List.pairwise_cons]
      refine ⟨lt_fullJoin hls.of_cons hrs.of_cons ?_ ?_, ih hls.of_cons hrs.of_cons⟩
      · exact fun e he => List.rel_of_pairwise_cons hls he
      · exact fun e he => List.rel_of_pairwise_cons hrs he

theorem pairwise_fullJoin_toList (s : ExtTreeMap κ α) (t : ExtTreeMap κ β) :
    (fullJoin s.toList t.toList).Pairwise fun a b => compare a.1 b.1 = .lt :=
  pairwise_fullJoin ExtTreeMap.ordered_keys_toList ExtTreeMap.ordered_keys_toList

theorem mem_fullJoin_toList {s : ExtTreeMap κ α} {t : ExtTreeMap κ β} {key : κ} {a : Option α}
    {b : Option β} :
    (key, a, b) ∈ fullJoin s.toList t.toList ↔
      s[key]? = a ∧ t[key]? = b ∧ (a.isSome ∨ b.isSome) := by
  have hlists {γ : Type} (m : ExtTreeMap κ γ) (value : Option γ) :
      Lists m.toList key value ↔ m[key]? = value := by
    simp only [Lists, ExtTreeMap.mem_toList_iff_getElem?_eq_some]
    constructor
    · intro hvalue
      exact Option.ext fun x => (hvalue x).symm
    · rintro rfl x
      rfl
  rw [mem_fullJoin ExtTreeMap.ordered_keys_toList ExtTreeMap.ordered_keys_toList, hlists, hlists]

end Join

section InsertMany

variable {κ α : Type} [Ord κ] [TransOrd κ] [LawfulEqOrd κ]

theorem mem_of_getElem?_insertMany {m : ExtTreeMap κ α} {entries : List (κ × α)} {key : κ} {x : α}
    (hx : (m.insertMany entries)[key]? = some x) : (key, x) ∈ entries ∨ m[key]? = some x := by
  induction entries generalizing m with
  | nil => exact Or.inr (by simpa using hx)
  | cons e entries ih =>
      rw [ExtTreeMap.insertMany_cons] at hx
      rcases ih hx with hmem | hm
      · exact Or.inl (List.mem_cons_of_mem e hmem)
      · rw [ExtTreeMap.getElem?_insert] at hm
        split at hm
        · rename_i hcmp
          obtain rfl : e.1 = key := LawfulEqOrd.eq_of_compare hcmp
          cases hm
          exact Or.inl List.mem_cons_self
        · exact Or.inr hm

theorem isSome_getElem?_insertMany {m : ExtTreeMap κ α} {entries : List (κ × α)} {key : κ}
    (hkey : m[key]?.isSome ∨ ∃ x, (key, x) ∈ entries) :
    (m.insertMany entries)[key]?.isSome := by
  induction entries generalizing m with
  | nil => simpa using hkey
  | cons e entries ih =>
      rw [ExtTreeMap.insertMany_cons]
      apply ih
      rw [ExtTreeMap.getElem?_insert]
      split
      · exact Or.inl rfl
      · rename_i hcmp
        rcases hkey with hm | ⟨x, hx⟩
        · exact Or.inl hm
        · rcases List.mem_cons.1 hx with rfl | hx
          · exact absurd ReflCmp.compare_self hcmp
          · exact Or.inr ⟨x, hx⟩

theorem getElem?_insertMany_of_last {m : ExtTreeMap κ α} {before after : List (κ × α)} {key : κ}
    {x : α} (hlast : ∀ e ∈ after, e.1 ≠ key) :
    (m.insertMany (before ++ (key, x) :: after))[key]? = some x := by
  have hsome : (m.insertMany (before ++ (key, x) :: after))[key]?.isSome :=
    isSome_getElem?_insertMany (.inr ⟨x, by simp⟩)
  obtain ⟨y, hy⟩ := Option.isSome_iff_exists.1 hsome
  rw [hy]
  rw [ExtTreeMap.insertMany_append, ExtTreeMap.insertMany_cons] at hy
  rcases mem_of_getElem?_insertMany hy with hmem | hget
  · exact absurd rfl (hlast _ hmem)
  · rw [ExtTreeMap.getElem?_insert_self] at hget
    exact hget.symm

end InsertMany

end OrderedMap
