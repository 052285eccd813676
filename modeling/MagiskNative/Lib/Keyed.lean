import Mathlib.Data.List.Nodup

/-!
# Tables with partial keys

A table is a list of entries of which some carry a key, no key twice. A pointer to the entry with a given
key is then the key itself, and following the pointer is `lookup`.
-/

namespace Keyed

variable {α κ : Type} [DecidableEq κ] (key? : α → Option κ)

structure Table where
  entries : List α
  unique : (entries.filterMap key?).Nodup

variable {key?}

namespace Table

variable (t : Table key?)

def lookup (k : κ) : Option α :=
  t.entries.find? fun a => key? a = some k

theorem lookup_eq_none {t : Table key?} {k : κ} :
    t.lookup k = none ↔ k ∉ t.entries.filterMap key? := by
  simp [lookup, List.find?_eq_none, List.mem_filterMap]

theorem key?_of_lookup {t : Table key?} {k : κ} {a : α} (hlookup : t.lookup k = some a) :
    key? a = some k := by
  simpa using List.find?_some hlookup

def remove (k : κ) : Table key? where
  entries := t.entries.filter fun a => key? a ≠ some k
  unique := t.unique.sublist (List.filter_sublist.filterMap key?)

/-- Writing through a pointer. The function must leave the entry's key alone. -/
def update (k : κ) (f : α → α) (hkey : ∀ a, key? a = some k → key? (f a) = some k) : Table key? where
  entries := t.entries.map fun a => if key? a = some k then f a else a
  unique := by
    have hsame : ∀ a, key? (if key? a = some k then f a else a) = key? a := by
      intro a
      by_cases ha : key? a = some k
      · rw [if_pos ha, hkey a ha, ha]
      · rw [if_neg ha]
    rw [List.filterMap_map, show key? ∘ _ = key? from funext hsame]
    exact t.unique

def insert (k : κ) (a : α) (hkey : key? a = some k) (habsent : t.lookup k = none) : Table key? where
  entries := a :: t.entries
  unique := by
    rw [List.filterMap_cons_some hkey]
    exact List.nodup_cons.2 ⟨lookup_eq_none.1 habsent, t.unique⟩

theorem lookup_remove (k k' : κ) : (t.remove k).lookup k' = if k' = k then none else t.lookup k' := by
  unfold lookup remove
  rw [List.find?_filter]
  by_cases hk : k' = k
  · subst hk
    simp
  · rw [if_neg hk]
    congr 1
    funext a
    by_cases ha : key? a = some k' <;> simp [ha, hk]

theorem lookup_update (k k' : κ) (f : α → α) (hkey : ∀ a, key? a = some k → key? (f a) = some k) :
    (t.update k f hkey).lookup k' = if k' = k then (t.lookup k).map f else t.lookup k' := by
  have hstep : ∀ a, decide (key? (if key? a = some k then f a else a) = some k')
      = decide (key? a = some k') := by
    intro a
    by_cases ha : key? a = some k
    · rw [if_pos ha, hkey a ha, ha]
    · rw [if_neg ha]
  have hfind : (t.update k f hkey).lookup k'
      = (t.lookup k').map fun a => if key? a = some k then f a else a := by
    simp only [lookup, update, List.find?_map]
    congr 2
    funext a
    exact hstep a
  rw [hfind]
  by_cases hk : k' = k
  · subst hk
    rw [if_pos rfl]
    cases hlookup : t.lookup k' with
    | none => rfl
    | some a => simp [key?_of_lookup hlookup]
  · rw [if_neg hk]
    cases hlookup : t.lookup k' with
    | none => rfl
    | some a => simp [key?_of_lookup hlookup, hk]

theorem lookup_insert (k k' : κ) (a : α) (hkey : key? a = some k) (habsent : t.lookup k = none) :
    (t.insert k a hkey habsent).lookup k' = if k' = k then some a else t.lookup k' := by
  simp only [lookup, insert, List.find?_cons, hkey, Option.some.injEq]
  by_cases hk : k' = k
  · simp [hk]
  · simp [hk, Ne.symm hk]

end Table

variable (key?) in
def find (xs : List α) (k : κ) : Option α := xs.find? fun a => key? a = some k

variable (key?) in
def Distinct (xs : List α) : Prop := (xs.filterMap key?).Nodup

section Positions

variable {xs ys : List α} {a : α} {k k' : κ}

theorem find_eq_none : find key? xs k = none ↔ ∀ b ∈ xs, key? b ≠ some k := by
  simp [find, List.find?_eq_none]

theorem find_middle (ha : key? a = some k) (hothers : find key? (xs ++ ys) k = none) :
    find key? (xs ++ a :: ys) k' = if k' = k then some a else find key? (xs ++ ys) k' := by
  have hbefore : find key? xs k = none := by
    rw [find_eq_none] at hothers ⊢
    exact fun b hb => hothers b (List.mem_append_left ys hb)
  unfold find at hbefore ⊢
  rw [List.find?_append, List.find?_cons, ha, List.find?_append]
  by_cases hk : k' = k
  · subst hk
    rw [hbefore]
    simp
  · simp [hk, Ne.symm hk]

theorem distinct_middle (ha : key? a = some k) :
    Distinct key? (xs ++ a :: ys) ↔ find key? (xs ++ ys) k = none ∧ Distinct key? (xs ++ ys) := by
  have hperm : (xs ++ a :: ys).Perm (a :: (xs ++ ys)) := List.perm_middle
  unfold Distinct
  rw [(hperm.filterMap key?).nodup_iff, List.filterMap_cons_some ha, List.nodup_cons, find_eq_none,
    List.mem_filterMap]
  refine and_congr_left fun _ => ?_
  exact ⟨fun h b hb hk => h ⟨b, hb, hk⟩, fun h ⟨b, hb, hk⟩ => h b hb hk⟩

theorem find_eq_some (hdistinct : Distinct key? xs) :
    find key? xs k = some a ↔ a ∈ xs ∧ key? a = some k := by
  constructor
  · intro hfind
    exact ⟨List.mem_of_find?_eq_some hfind, by simpa using List.find?_some hfind⟩
  · rintro ⟨hmem, ha⟩
    obtain ⟨before, after, rfl⟩ := List.append_of_mem hmem
    rw [find_middle ha ((distinct_middle ha).1 hdistinct).1, if_pos rfl]

omit [DecidableEq κ] in
theorem Distinct.perm (hdistinct : Distinct key? xs) (hperm : xs.Perm ys) : Distinct key? ys :=
  (hperm.filterMap key?).nodup_iff.1 hdistinct

theorem find_perm (hdistinct : Distinct key? xs) (hperm : xs.Perm ys) :
    find key? xs k = find key? ys k := by
  ext a
  rw [find_eq_some hdistinct, find_eq_some (hdistinct.perm hperm), hperm.mem_iff]

end Positions

end Keyed
