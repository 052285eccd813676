import Mathlib.Tactic.SplitIfs

/-!
# Trees of named entries
-/

namespace MagiskNative

inductive Forest (α : Type) where
  | nil
  | entry (name : String) (val : α) (sub rest : Forest α)
  deriving DecidableEq, Repr

namespace Forest

variable {α : Type}

def lookup (name : String) : Forest α → Option (α × Forest α)
  | nil => none
  | entry name' val sub rest => if name' = name then some (val, sub) else rest.lookup name

def put : Forest α → String → α → Forest α → Forest α
  | nil, name, val, sub => entry name val sub nil
  | entry name' val' sub' rest, name, val, sub =>
      if name' = name then entry name val sub rest else entry name' val' sub' (rest.put name val sub)

def append : Forest α → Forest α → Forest α
  | nil, g => g
  | entry name val sub rest, g => entry name val sub (rest.append g)

/-- The entries that are kept, with all that is below them. -/
def retain (keep : String → α → Bool) : Forest α → Forest α
  | nil => nil
  | entry name val sub rest => if keep name val then entry name val sub (rest.retain keep) else rest.retain keep

def find? (f : Forest α) : List String → Option (α × Forest α)
  | [] => none
  | [name] => f.lookup name
  | name :: path => (f.lookup name).bind fun e => e.2.find? path

/-- What is at a path that goes through directories only. -/
def at? (isDir : α → Bool) (f : Forest α) : List String → Option α
  | [] => none
  | name :: path =>
      (f.lookup name).bind fun e => if path = [] then some e.1 else if isDir e.1 then e.2.at? isDir path else none

/-- No two entries of a directory have the same name. -/
def Distinct : Forest α → Prop
  | nil => True
  | entry name _ sub rest => rest.lookup name = none ∧ sub.Distinct ∧ rest.Distinct

variable {name name' : String} {val : α} {sub rest : Forest α} {isDir : α → Bool}

@[simp] theorem lookup_nil : (nil : Forest α).lookup name = none := rfl

@[simp] theorem lookup_entry_self : (entry name val sub rest).lookup name = some (val, sub) := if_pos rfl

theorem lookup_entry_of_ne (hne : name' ≠ name) : (entry name' val sub rest).lookup name = rest.lookup name :=
  if_neg hne

theorem lookup_put (f : Forest α) :
    (f.put name' val sub).lookup name = if name' = name then some (val, sub) else f.lookup name := by
  induction f with
  | nil => rfl
  | entry first val' sub' rest _ ih =>
      by_cases hfirst : first = name'
      · by_cases hname : name' = name <;> simp [put, lookup, hfirst, hname]
      · by_cases hname : name' = name <;> simp_all [put, lookup]

theorem lookup_append (f g : Forest α) :
    (f.append g).lookup name = (f.lookup name).or (g.lookup name) := by
  induction f with
  | nil => rfl
  | entry first val' sub' rest _ ih =>
      rw [append, lookup, lookup, ih]
      split_ifs <;> rfl

theorem lookup_retain_name (p : String → Bool) (f : Forest α) :
    (f.retain fun name _ => p name).lookup name = if p name then f.lookup name else none := by
  induction f with
  | nil => exact (ite_self _).symm
  | entry first val' sub' rest _ ih =>
      by_cases hname : first = name
      · by_cases hp : p name <;> simp_all [retain, lookup]
      · by_cases hp : p first <;> simp_all [retain, lookup]

theorem lookup_retain_of_none {keep : String → α → Bool} {f : Forest α} (hf : f.lookup name = none) :
    (f.retain keep).lookup name = none := by
  induction f with
  | nil => rfl
  | entry first val' sub' rest _ ih =>
      by_cases hname : first = name
      · simp [lookup, hname] at hf
      · by_cases hkeep : keep first val' <;> simp_all [retain, lookup]

theorem Distinct.retain {keep : String → α → Bool} {f : Forest α} (hf : f.Distinct) :
    (f.retain keep).Distinct := by
  induction f with
  | nil => trivial
  | entry first val' sub' rest _ ih =>
      unfold Forest.retain
      split_ifs
      · exact ⟨lookup_retain_of_none hf.1, hf.2.1, ih hf.2.2⟩
      · exact ih hf.2.2

theorem Distinct.of_lookup {f : Forest α} (hf : f.Distinct) (hlookup : f.lookup name = some (val, sub)) :
    sub.Distinct := by
  induction f with
  | nil => cases hlookup
  | entry first val' sub' rest _ ih =>
      rw [lookup] at hlookup
      split_ifs at hlookup
      · cases hlookup
        exact hf.2.1
      · exact ih hf.2.2 hlookup

theorem Distinct.of_find? {f : Forest α} {path : List String} {e : α × Forest α} (hf : f.Distinct)
    (hfind : f.find? path = some e) : e.2.Distinct := by
  induction path generalizing f with
  | nil => cases hfind
  | cons name path ih =>
      cases path with
      | nil => exact hf.of_lookup hfind
      | cons first path =>
          obtain ⟨e', hlookup, hfind⟩ := Option.bind_eq_some_iff.1 hfind
          exact ih (hf.of_lookup hlookup) hfind

theorem at?_nil (path : List String) : (nil : Forest α).at? isDir path = none := by
  cases path <;> rfl

theorem isDir_of_at?_append {f : Forest α} {q r : List String} {a b : α} (ha : f.at? isDir (q ++ r) = some a)
    (hr : r ≠ []) (hb : f.at? isDir q = some b) : isDir b = true := by
  induction q generalizing f with
  | nil => cases hb
  | cons name q ih =>
      rw [List.cons_append] at ha
      unfold at? at ha hb
      cases hlookup : f.lookup name with
      | none => simp [hlookup] at hb
      | some e =>
          by_cases hdir : isDir e.1
          · by_cases hq : q = []
            · simp_all
            · exact ih (by simpa [hlookup, hq, hdir] using ha) (by simpa [hlookup, hq, hdir] using hb)
          · simp [hlookup, hr, hdir] at ha

end Forest

end MagiskNative
