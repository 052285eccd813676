import Mathlib.Tactic

/-!
# Readers with short reads

A reader holds the bytes still to come and what its next calls will do: hand out at most so many
bytes, be interrupted, or fail. Once nothing more is scheduled every read is served in full. Any
finite sequence of calls to a blocking reader is such a schedule.
-/

namespace Reader

inductive Error where
  | unexpectedEof
  | interrupted
  | other
  deriving DecidableEq, Repr

/-- What one call to `read` does. `short n` hands out at most `n + 1` bytes, since a read into a
non-empty buffer that returns nothing means end of file. -/
inductive Event where
  | short (n : Nat)
  | interrupted
  | failed
  deriving DecidableEq, Repr

structure State where
  data : List UInt8
  events : List Event
  deriving DecidableEq, Repr

def read (r : State) (len : Nat) : Except Error (List UInt8) × State :=
  match r.events with
  | [] => (.ok (r.data.take len), ⟨r.data.drop len, []⟩)
  | .short n :: events =>
      (.ok (r.data.take (min (n + 1) len)), ⟨r.data.drop (min (n + 1) len), events⟩)
  | .interrupted :: events => (.error .interrupted, ⟨r.data, events⟩)
  | .failed :: events => (.error .other, ⟨r.data, events⟩)

theorem events_read (r : State) (len : Nat) :
    (read r len).2.events.length ≤ r.events.length ∧
      ((read r len).1 = .error .interrupted →
        (read r len).2.events.length < r.events.length) := by
  unfold read
  split <;> simp_all

def prepend (got : List UInt8) :
    Except Error (List UInt8) × State → Except Error (List UInt8) × State
  | (.ok rest, r) => (.ok (got ++ rest), r)
  | (.error e, r) => (.error e, r)

variable {got : List UInt8} {r : State} {len limit : Nat}

theorem prepend_eq_ok {all : List UInt8} {x : Except Error (List UInt8) × State}
    (hprepend : prepend got x = (.ok all, r)) : ∃ rest, x = (.ok rest, r) ∧ all = got ++ rest := by
  obtain ⟨_ | rest, r'⟩ := x <;> cases hprepend
  exact ⟨rest, rfl, rfl⟩

theorem prepend_eq_error {x : Except Error (List UInt8) × State} {e : Error}
    (hprepend : prepend got x = (.error e, r)) : x = (.error e, r) := by
  obtain ⟨_ | rest, r'⟩ := x <;> cases hprepend
  rfl

/-- The default `read_exact`: go on after an interruption, stop at end of file. -/
def readExact (r : State) (len : Nat) : Except Error (List UInt8) × State :=
  if len = 0 then (.ok [], r)
  else
    match _hread : read r len with
    | (.ok [], r') => (.error .unexpectedEof, r')
    | (.ok (b :: got), r') => prepend (b :: got) (readExact r' (len - (b :: got).length))
    | (.error .interrupted, r') => readExact r' len
    | (.error e, r') => (.error e, r')
termination_by len + r.events.length
decreasing_by
  · have hevents := (events_read r len).1
    rw [_hread] at hevents
    simp only [List.length_cons] at hevents ⊢
    omega
  · have hevents := (events_read r len).2 (by rw [_hread])
    rw [_hread] at hevents
    simp only at hevents
    omega

variable {r' : State}

theorem readExact_of_read_nil (hlen : len ≠ 0)
    (hread : read r len = (.ok [], r')) : readExact r len = (.error .unexpectedEof, r') := by
  rw [readExact, if_neg hlen]
  split <;> simp_all

theorem readExact_of_read_ok (hne : got ≠ [])
    (hlen : len ≠ 0) (hread : read r len = (.ok got, r')) :
    readExact r len = prepend got (readExact r' (len - got.length)) := by
  obtain ⟨b, got, rfl⟩ := List.exists_cons_of_ne_nil hne
  rw [readExact, if_neg hlen]
  split <;> rename_i hcase <;> rw [hread] at hcase <;> cases hcase
  rfl

theorem data_read
    (hread : read r len = (.ok got, r')) : r.data = got ++ r'.data ∧ got.length ≤ len := by
  obtain ⟨data, events⟩ := r
  rcases events with - | ⟨n | - | -, events⟩ <;> cases hread
  · exact ⟨(List.take_append_drop _ data).symm, List.length_take_le _ data⟩
  · refine ⟨(List.take_append_drop _ data).symm, ?_⟩
    exact (List.length_take_le _ data).trans (Nat.min_le_right _ _)

theorem data_read_interrupted
    (hread : read r len = (.error .interrupted, r')) : r'.data = r.data := by
  obtain ⟨data, events⟩ := r
  rcases events with - | ⟨n | - | -, events⟩ <;> cases hread
  rfl

theorem length_data_read_le (r : State) (len : Nat) :
    (read r len).2.data.length ≤ r.data.length := by
  obtain ⟨data, events⟩ := r
  rcases events with - | ⟨n | - | -, events⟩ <;> simp [read]

theorem data_readExact
    (hread : readExact r len = (.ok got, r')) : r.data = got ++ r'.data ∧ got.length = len := by
  fun_induction readExact r len generalizing got with
  | case1 r =>
      cases hread
      exact ⟨rfl, rfl⟩
  | case2 r len hlen r₁ hnil => cases hread
  | case3 r len hlen b first r₁ hfirst ih =>
      obtain ⟨hdata, hle⟩ := data_read hfirst
      obtain ⟨rest, hrest, rfl⟩ := prepend_eq_ok hread
      obtain ⟨hdata', hlength⟩ := ih hrest
      refine ⟨by rw [hdata, hdata', List.append_assoc], ?_⟩
      rw [List.length_append, hlength]
      omega
  | case4 r len hlen r₁ hfirst ih =>
      rw [← data_read_interrupted hfirst]
      exact ih hread
  | case5 r len hlen e r₁ hinterrupted hfirst => cases hread

theorem readExact_full {data : List UInt8} (hlen : len ≤ data.length) :
    readExact ⟨data, []⟩ len = (.ok (data.take len), ⟨data.drop len, []⟩) := by
  by_cases hzero : len = 0
  · subst hzero
    simp [readExact]
  · have hgot : (data.take len).length = len := by rw [List.length_take, Nat.min_eq_left hlen]
    have hne : data.take len ≠ [] := List.ne_nil_of_length_pos (by omega)
    rw [readExact_of_read_ok hne hzero rfl, hgot, Nat.sub_self, readExact, if_pos rfl, prepend, List.append_nil]

/-- No call fails or is interrupted. -/
def OnlyShort (events : List Event) : Prop := ∀ event ∈ events, ∃ n, event = .short n

theorem read_onlyShort (hevents : OnlyShort r.events) (len : Nat) :
    ∃ n events, read r len = (.ok (r.data.take n), ⟨r.data.drop n, events⟩) ∧
      OnlyShort events ∧ n ≤ len ∧ (0 < len → 0 < n) := by
  obtain ⟨data, events⟩ := r
  cases events with
  | nil =>
      exact ⟨len, [], rfl, hevents, le_refl len, id⟩
  | cons event events =>
      obtain ⟨n, rfl⟩ := hevents event List.mem_cons_self
      have htail : OnlyShort events := fun e he => hevents e (List.mem_cons_of_mem _ he)
      refine ⟨min (n + 1) len, events, rfl, htail, Nat.min_le_right _ _, ?_⟩
      intro hlen
      omega

theorem take_ne_nil {data : List UInt8} {n : Nat} (hn : 0 < n) (hdata : data ≠ []) :
    data.take n ≠ [] := by
  intro hnil
  have hlength := congrArg List.length hnil
  have hpos := List.length_pos_of_ne_nil hdata
  rw [List.length_take, List.length_nil] at hlength
  omega

theorem readExact_onlyShort (hevents : OnlyShort r.events) (hlen : len ≤ r.data.length) :
    ∃ events, readExact r len = (.ok (r.data.take len), ⟨r.data.drop len, events⟩) ∧
      OnlyShort events := by
  induction len using Nat.strong_induction_on generalizing r with
  | _ len ih =>
      by_cases hzero : len = 0
      · subst hzero
        exact ⟨r.events, by simp [readExact], hevents⟩
      · obtain ⟨n, events, hread, hshort, hle, hpos⟩ := read_onlyShort hevents len
        have hn : 0 < n := hpos (Nat.pos_of_ne_zero hzero)
        have hdata : r.data ≠ [] := by
          intro hnil
          rw [hnil, List.length_nil] at hlen
          omega
        have htake : (r.data.take n).length = n := by
          rw [List.length_take]
          omega
        obtain ⟨events', hrest, hshort'⟩ := @ih (len - n) (by omega) ⟨r.data.drop n, events⟩ hshort
          (by rw [List.length_drop]; omega)
        refine ⟨events', ?_, hshort'⟩
        rw [readExact_of_read_ok (take_ne_nil hn hdata) hzero hread, htake, hrest, prepend]
        have hsum : n + (len - n) = len := by omega
        rw [← List.take_add, List.drop_drop, hsum]

theorem readExact_eof (hevents : OnlyShort r.events) (len : Nat) (hlen : r.data.length < len) :
    ∃ events, readExact r len = (.error .unexpectedEof, ⟨[], events⟩) ∧ OnlyShort events := by
  induction len using Nat.strong_induction_on generalizing r with
  | _ len ih =>
      have hzero : len ≠ 0 := by omega
      obtain ⟨n, events, hread, hshort, hle, hpos⟩ := read_onlyShort hevents len
      have hn : 0 < n := hpos (Nat.pos_of_ne_zero hzero)
      by_cases hdata : r.data = []
      · rw [hdata, List.take_nil, List.drop_nil] at hread
        exact ⟨events, readExact_of_read_nil hzero hread, hshort⟩
      · have htake : 0 < (r.data.take n).length := List.length_pos_of_ne_nil (take_ne_nil hn hdata)
        have hle' : (r.data.take n).length ≤ n := List.length_take_le n r.data
        have hdrop : (r.data.drop n).length < len - (r.data.take n).length := by
          rw [List.length_drop, List.length_take] at *
          omega
        obtain ⟨events', hrest, hshort'⟩ := @ih (len - (r.data.take n).length) (by omega)
          ⟨r.data.drop n, events⟩ hshort hdrop
        refine ⟨events', ?_, hshort'⟩
        rw [readExact_of_read_ok (take_ne_nil hn hdata) hzero hread, hrest, prepend]

/-- `read_to_end` of a reader that is limited to the next bytes: end of file is no error. -/
def readTake (r : State) (limit : Nat) : Except Error (List UInt8) × State :=
  if limit = 0 then (.ok [], r)
  else
    match _hread : read r limit with
    | (.ok [], r') => (.ok [], r')
    | (.ok (b :: got), r') => prepend (b :: got) (readTake r' (limit - (b :: got).length))
    | (.error .interrupted, r') => readTake r' limit
    | (.error e, r') => (.error e, r')
termination_by limit + r.events.length
decreasing_by
  · have hevents := (events_read r limit).1
    rw [_hread] at hevents
    simp only [List.length_cons] at hevents ⊢
    omega
  · have hevents := (events_read r limit).2 (by rw [_hread])
    rw [_hread] at hevents
    simp only at hevents
    omega

theorem data_eq_nil_of_read (hlen : len ≠ 0) (hread : read r len = (.ok [], r')) : r.data = [] := by
  obtain ⟨data, events⟩ := r
  rcases events with - | ⟨n | - | -, events⟩ <;> simp only [read, Prod.mk.injEq, Except.ok.injEq] at hread
  · exact (List.take_eq_nil_iff.1 hread.1).resolve_left hlen
  · exact (List.take_eq_nil_iff.1 hread.1).resolve_left (by omega)
  · cases hread.1
  · cases hread.1

theorem readTake_eof {data : List UInt8} (hlimit : data.length ≤ limit) :
    readTake ⟨data, []⟩ limit = (.ok data, ⟨[], []⟩) := by
  have hread : ∀ {data : List UInt8} {limit : Nat}, data.length ≤ limit →
      read ⟨data, []⟩ limit = (.ok data, ⟨[], []⟩) := by
    intro data limit hle
    rw [read, List.take_of_length_le hle, List.drop_of_length_le hle]
  have hnil : ∀ limit, readTake ⟨[], []⟩ limit = (.ok [], ⟨[], []⟩) := by
    intro limit
    rw [readTake]
    split
    · rfl
    · split <;> simp_all
  rw [readTake]
  split
  case isTrue hzero =>
    rw [hzero] at hlimit
    rw [List.length_eq_zero_iff.1 (Nat.le_zero.1 hlimit)]
  case isFalse =>
    split <;> rename_i hcase <;> rw [hread hlimit] at hcase <;> cases hcase
    · rfl
    · rw [hnil, prepend, List.append_nil]

theorem data_readTake (hread : readTake r limit = (.ok got, r')) :
    r.data = got ++ r'.data ∧ got.length ≤ limit ∧ (got.length = limit ∨ r'.data = []) := by
  fun_induction readTake r limit generalizing got with
  | case1 r =>
      cases hread
      exact ⟨rfl, le_rfl, .inl rfl⟩
  | case2 r limit hzero r₁ hnil =>
      cases hread
      have hdata := (data_read hnil).1
      exact ⟨hdata, Nat.zero_le limit, .inr (hdata.symm.trans (data_eq_nil_of_read hzero hnil))⟩
  | case3 r limit hzero b first r₁ hfirst ih =>
      obtain ⟨hdata, hle⟩ := data_read hfirst
      obtain ⟨rest, hrest, rfl⟩ := prepend_eq_ok hread
      obtain ⟨hdata', hlength, hend⟩ := ih hrest
      refine ⟨by rw [hdata, hdata', List.append_assoc], ?_⟩
      rw [List.length_append]
      exact ⟨by omega, hend.imp_left (by omega)⟩
  | case4 r limit hzero r₁ hfirst ih =>
      rw [← data_read_interrupted hfirst]
      exact ih hread
  | case5 r limit hzero e r₁ hinterrupted hfirst => cases hread

theorem readTake_eq_readExact (hlimit : limit ≤ r.data.length) :
    readTake r limit = readExact r limit := by
  fun_induction readTake r limit with
  | case1 r => rw [readExact, if_pos rfl]
  | case2 r limit hzero r' hread =>
      rw [data_eq_nil_of_read hzero hread, List.length_nil] at hlimit
      exact absurd (Nat.le_zero.1 hlimit) hzero
  | case3 r limit hzero b got r' hread ih =>
      have hdata := congrArg List.length (data_read hread).1
      rw [List.length_append] at hdata
      rw [readExact_of_read_ok (List.cons_ne_nil b got) hzero hread, ih (by omega)]
  | case4 r limit hzero r' hread ih =>
      rw [ih (by rwa [data_read_interrupted hread])]
      conv_rhs => rw [readExact, if_neg hzero]
      split <;> simp_all
  | case5 r limit hzero e r' hinterrupted hread =>
      rw [readExact, if_neg hzero]
      split <;> simp_all

end Reader
