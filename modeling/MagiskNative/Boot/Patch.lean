import MagiskNative.Lib.Loop
import MagiskNative.Lib.Text

/-!
# Removing mount flags

`remove_pattern` moves the bytes it keeps to the front of the buffer while it reads on behind them. A
matcher is trusted with raw slices; what it owes in return, a match of at least one byte and inside
the slice, is part of its type.
-/

namespace MagiskNative.Patch

open Text (utf8Bytes)

structure Matcher where
  find : List UInt8 → Option Nat
  bounds : ∀ buf len, find buf = some len → 0 < len ∧ len ≤ buf.length

def isSeparator (c : UInt8) : Bool := c = 0x20 ∨ c = 0x0a ∨ c = 0x2c ∨ c = 0

def matchPatterns (patterns : List (List UInt8)) (buf : List UInt8) : Option Nat :=
  let len := if buf.head? = some 0x2c then 1 else 0
  let b := buf.drop len
  if b.isEmpty then none
  else
    match patterns.find? (· <+: b) with
    | none => none
    | some pattern =>
        let len := len + pattern.length
        let b := buf.drop len
        if b.head? = some 0x3d then some (len + (b.takeWhile (!isSeparator ·)).length) else some len

theorem matchPatterns_bounds {patterns : List (List UInt8)} (hpatterns : [] ∉ patterns)
    (buf : List UInt8) (len : Nat) (hmatch : matchPatterns patterns buf = some len) :
    0 < len ∧ len ≤ buf.length := by
  rw [matchPatterns] at hmatch
  generalize (if buf.head? = some 0x2c then 1 else 0) = comma at hmatch
  simp only [] at hmatch
  split at hmatch
  · cases hmatch
  · rename_i hne
    cases hfind : patterns.find? (· <+: buf.drop comma) with
    | none =>
        rw [hfind] at hmatch
        cases hmatch
    | some pattern =>
        simp only [hfind] at hmatch
        have hpos : 0 < pattern.length := by
          apply List.length_pos_of_ne_nil
          rintro rfl
          exact hpatterns (List.mem_of_find?_eq_some hfind)
        have hstarts : pattern <+: buf.drop comma := by simpa using List.find?_some hfind
        have hle := hstarts.length_le
        have htake := (List.takeWhile_sublist (l := buf.drop (comma + pattern.length))
          (!isSeparator ·)).length_le
        rw [List.length_drop] at hle htake
        split at hmatch <;> cases hmatch <;> omega

def verityPatterns : List (List UInt8) :=
  [utf8Bytes "verifyatboot", utf8Bytes "verify", utf8Bytes "avb_keys", utf8Bytes "avb",
    utf8Bytes "support_scfs", utf8Bytes "fsverity"]

def encryptionPatterns : List (List UInt8) :=
  [utf8Bytes "forceencrypt", utf8Bytes "forcefdeorfbe", utf8Bytes "fileencryption"]

def verityMatcher : Matcher where
  find := matchPatterns verityPatterns
  bounds := matchPatterns_bounds (by decide)

def encryptionMatcher : Matcher where
  find := matchPatterns encryptionPatterns
  bounds := matchPatterns_bounds (by decide)

/-- The loop of `remove_pattern`: the buffer, how far it is written and read, and the size left. -/
def removeLoop (matcher : Matcher) (buf : List UInt8) (write read sz : Nat) : List UInt8 × Nat :=
  if hread : read < buf.length then
    match _hmatch : matcher.find (buf.drop read) with
    | some len => removeLoop matcher buf write (read + len) (sz - len)
    | none => removeLoop matcher (buf.set write buf[read]) (write + 1) (read + 1) sz
  else (buf.take write ++ List.replicate (buf.length - write) 0, sz)
termination_by buf.length - read
decreasing_by
  · have := (matcher.bounds _ _ _hmatch).1
    omega
  · rw [List.length_set]
    omega

def removePattern (matcher : Matcher) (buf : List UInt8) : List UInt8 × Nat :=
  removeLoop matcher buf 0 0 buf.length

def patchVerity (buf : List UInt8) : List UInt8 × Nat := removePattern verityMatcher buf

def patchEncryption (buf : List UInt8) : List UInt8 × Nat := removePattern encryptionMatcher buf

/-- The bytes that are kept: at each position the match is skipped, or one byte is copied. -/
def kept (matcher : Matcher) (buf : List UInt8) : List UInt8 :=
  match buf with
  | [] => []
  | b :: rest =>
      match _hmatch : matcher.find (b :: rest) with
      | some len => kept matcher ((b :: rest).drop len)
      | none => b :: kept matcher rest
termination_by buf.length
decreasing_by
  · have hpos := (matcher.bounds _ _ _hmatch).1
    rw [List.length_drop, List.length_cons]
    omega
  · exact Nat.lt_succ_self _

theorem kept_of_match {matcher : Matcher} {buf : List UInt8} {len : Nat}
    (hmatch : matcher.find buf = some len) : kept matcher buf = kept matcher (buf.drop len) := by
  cases buf with
  | nil => rw [List.drop_nil]
  | cons b rest =>
      rw [kept]
      split
      · rename_i len' hmatch'
        rw [hmatch] at hmatch'
        cases hmatch'
        rfl
      · rename_i hnone
        rw [hmatch] at hnone
        cases hnone

theorem kept_of_no_match {matcher : Matcher} {b : UInt8} {rest : List UInt8}
    (hmatch : matcher.find (b :: rest) = none) :
    kept matcher (b :: rest) = b :: kept matcher rest := by
  rw [kept]
  split
  · rename_i len hsome
    rw [hmatch] at hsome
    cases hsome
  · rfl

structure Removal where
  buf : List UInt8
  write : Nat
  read : Nat
  sz : Nat

def Removal.start (buf : List UInt8) : Removal := ⟨buf, 0, 0, buf.length⟩

def removeRound (matcher : Matcher) (s : Removal) : Loop.Round Removal (List UInt8 × Nat) :=
  if hread : s.read < s.buf.length then
    match matcher.find (s.buf.drop s.read) with
    | some len => .next ⟨s.buf, s.write, s.read + len, s.sz - len⟩
    | none => .next ⟨s.buf.set s.write s.buf[s.read], s.write + 1, s.read + 1, s.sz⟩
  else .leave (s.buf.take s.write ++ List.replicate (s.buf.length - s.write) 0, s.sz)

section Remove

variable {matcher : Matcher} {buf : List UInt8} {s t : Removal}

theorem removeRound_eq_next (hround : removeRound matcher s = .next t) :
    s.read < s.buf.length ∧
      ((∃ len, matcher.find (s.buf.drop s.read) = some len ∧
          t = ⟨s.buf, s.write, s.read + len, s.sz - len⟩) ∨
        ∃ b rest, s.buf.drop s.read = b :: rest ∧ matcher.find (b :: rest) = none ∧
          t = ⟨s.buf.set s.write b, s.write + 1, s.read + 1, s.sz⟩) := by
  rw [removeRound] at hround
  split at hround
  · rename_i hread
    refine ⟨hread, ?_⟩
    cases hmatch : matcher.find (s.buf.drop s.read) with
    | some len =>
        rw [hmatch] at hround
        cases hround
        exact .inl ⟨len, rfl, rfl⟩
    | none =>
        rw [hmatch] at hround
        cases hround
        have hdrop := List.drop_eq_getElem_cons hread
        rw [hdrop] at hmatch
        exact .inr ⟨_, _, hdrop, hmatch, rfl⟩
  · cases hround

theorem removeLoop_of_next (hround : removeRound matcher s = .next t) :
    removeLoop matcher s.buf s.write s.read s.sz = removeLoop matcher t.buf t.write t.read t.sz := by
  rw [removeLoop]
  rw [removeRound] at hround
  split at hround
  · rename_i hread
    rw [dif_pos hread]
    split
    · rename_i len hmatch
      rw [hmatch] at hround
      cases hround
      rfl
    · rename_i hmatch
      rw [hmatch] at hround
      cases hround
      rfl
  · cases hround

theorem removeLoop_of_leave {result : List UInt8 × Nat} (hround : removeRound matcher s = .leave result) :
    removeLoop matcher s.buf s.write s.read s.sz = result := by
  rw [removeLoop]
  rw [removeRound] at hround
  split at hround
  · split at hround <;> cases hround
  · rename_i hread
    rw [dif_neg hread]
    cases hround
    rfl

/-- What holds whenever a round starts: the bytes that were read are at the front, as far as they are
kept, and those that are not read yet are as they were. -/
structure InPlace (matcher : Matcher) (buf : List UInt8) (s : Removal) : Prop where
  length : s.buf.length = buf.length
  write_le : s.write ≤ s.read
  read_le : s.read ≤ buf.length
  unread : s.buf.drop s.read = buf.drop s.read
  size : s.sz = s.write + (buf.length - s.read)
  written : s.buf.take s.write ++ kept matcher (buf.drop s.read) = kept matcher buf

theorem inPlace_start (matcher : Matcher) (buf : List UInt8) :
    InPlace matcher buf (.start buf) where
  length := rfl
  write_le := Nat.le_refl 0
  read_le := Nat.zero_le _
  unread := rfl
  size := (Nat.zero_add _).symm
  written := rfl

theorem InPlace.next (hs : InPlace matcher buf s) (hround : removeRound matcher s = .next t) :
    InPlace matcher buf t := by
  obtain ⟨hread, hnext⟩ := removeRound_eq_next hround
  rw [hs.length] at hread
  have hwrite := hs.write_le
  have hsize := hs.size
  rcases hnext with ⟨len, hmatch, rfl⟩ | ⟨b, rest, hdrop, hmatch, rfl⟩
  · have hlen := (matcher.bounds _ _ hmatch).2
    rw [List.length_drop, hs.length] at hlen
    have hdrop : ∀ l : List UInt8, l.drop (s.read + len) = (l.drop s.read).drop len := fun l =>
      (List.drop_drop ..).symm
    rw [hs.unread] at hmatch
    constructor
    · exact hs.length
    · exact hwrite.trans (Nat.le_add_right _ _)
    · simp only []
      omega
    · rw [hdrop, hs.unread, hdrop]
    · simp only []
      omega
    · rw [hdrop, ← kept_of_match hmatch]
      exact hs.written
  · have hrest : ∀ l : List UInt8, l.drop s.read = b :: rest → l.drop (s.read + 1) = rest := by
      intro l hl
      rw [← List.drop_drop, hl, List.drop_succ_cons, List.drop_zero]
    have hdrop' := hdrop
    rw [hs.unread] at hdrop'
    constructor
    · rw [List.length_set, hs.length]
    · exact Nat.succ_le_succ hwrite
    · exact hread
    · -- The write is behind what is read next.
      rw [List.drop_set_of_lt (by simp only []; omega), hrest _ hdrop, hrest _ hdrop']
    · simp only []
      omega
    · have htake : (s.buf.set s.write b).take (s.write + 1) = s.buf.take s.write ++ [b] := by
        rw [List.take_set, List.take_add_one, List.getElem?_eq_getElem (by rw [hs.length]; omega),
          Option.toList_some, List.set_append_right _ _ (by simp), List.length_take,
          Nat.min_eq_left (by rw [hs.length]; omega), Nat.sub_self]
        rfl
      have hkept := hs.written
      rw [hdrop', kept_of_no_match hmatch] at hkept
      rw [htake, hrest _ hdrop', List.append_assoc]
      exact hkept

theorem InPlace.of_visits (hvisits : Loop.Visits (removeRound matcher) (.start buf) s) :
    InPlace matcher buf s :=
  hvisits.invariant (fun _ _ ht hround => ht.next hround) (inPlace_start matcher buf)

theorem InPlace.leave (hs : InPlace matcher buf s) {result : List UInt8 × Nat}
    (hround : removeRound matcher s = .leave result) :
    result = (kept matcher buf ++ List.replicate (buf.length - (kept matcher buf).length) 0,
      (kept matcher buf).length) := by
  rw [removeRound] at hround
  split at hround
  · split at hround <;> cases hround
  · rename_i hread
    cases hround
    have hend : s.read = buf.length := by
      have hle := hs.read_le
      rw [hs.length] at hread
      omega
    have htake : s.buf.take s.write = kept matcher buf := by
      have hwritten := hs.written
      rwa [hend, List.drop_length, kept, List.append_nil] at hwritten
    have hwrite : s.write = (kept matcher buf).length := by
      have hle := hs.write_le
      rw [← htake, List.length_take, hs.length]
      omega
    rw [hs.size, htake, hs.length, hend, hwrite, Nat.sub_self, Nat.add_zero]

theorem removeLoop_of_visits (hvisits : Loop.Visits (removeRound matcher) (.start buf) s) :
    removeLoop matcher s.buf s.write s.read s.sz = removePattern matcher buf :=
  Loop.Visits.invariant
    (P := fun s => removeLoop matcher s.buf s.write s.read s.sz = removePattern matcher buf) hvisits
    (fun _ _ ht hround => (removeLoop_of_next hround).symm.trans ht) rfl

theorem run_removeRound (matcher : Matcher) (buf : List UInt8) :
    Loop.run (removeRound matcher) (buf.length + 1) (.start buf) = some (removePattern matcher buf) := by
  have hlt : ∀ t u, Loop.Visits (removeRound matcher) (.start buf) t →
      removeRound matcher t = .next u → buf.length - u.read < buf.length - t.read := by
    intro t u hvisits hround
    have ht := InPlace.of_visits hvisits
    obtain ⟨hread, hnext⟩ := removeRound_eq_next hround
    rw [ht.length] at hread
    rcases hnext with ⟨len, hmatch, rfl⟩ | ⟨b, rest, -, -, rfl⟩
    · have hpos := (matcher.bounds _ _ hmatch).1
      simp only []
      omega
    · simp only []
      omega
  obtain ⟨result, hrun⟩ := Loop.exists_run_of_measure (μ := fun s : Removal => buf.length - s.read) hlt
    (Nat.lt_succ_self _)
  obtain ⟨t, hvisits, hleave⟩ := Loop.exists_leave_of_run hrun
  refine hrun.trans (congrArg some ?_)
  rw [← removeLoop_of_leave hleave, removeLoop_of_visits hvisits]

theorem removePattern_eq (matcher : Matcher) (buf : List UInt8) :
    removePattern matcher buf
      = (kept matcher buf ++ List.replicate (buf.length - (kept matcher buf).length) 0,
        (kept matcher buf).length) := by
  obtain ⟨t, hvisits, hleave⟩ := Loop.exists_leave_of_run (run_removeRound matcher buf)
  exact (InPlace.of_visits hvisits).leave hleave

/-- **In place as by copying.** The buffer starts with the bytes that the copying scan keeps, the rest
is zero, and the size is the number of those bytes. Whenever a match is tried, the bytes from there on
are the original ones. The two matchers keep to what a matcher owes. -/
theorem removePattern_eq_kept (matcher : Matcher) (buf : List UInt8) :
    removePattern matcher buf
        = (kept matcher buf ++ List.replicate (buf.length - (kept matcher buf).length) 0,
          (kept matcher buf).length) ∧
      Loop.run (removeRound matcher) (buf.length + 1) (.start buf)
        = some (removePattern matcher buf) ∧
      (∀ s, Loop.Visits (removeRound matcher) (.start buf) s →
        s.write ≤ s.read ∧ s.read ≤ buf.length ∧ s.buf.drop s.read = buf.drop s.read) ∧
      ∀ line len, verityMatcher.find line = some len ∨ encryptionMatcher.find line = some len →
        0 < len ∧ len ≤ line.length := by
  refine ⟨removePattern_eq matcher buf, run_removeRound matcher buf, ?_, ?_⟩
  · intro s hvisits
    have hs := InPlace.of_visits hvisits
    exact ⟨hs.write_le, hs.read_le, hs.unread⟩
  · rintro line len (hmatch | hmatch)
    · exact verityMatcher.bounds line len hmatch
    · exact encryptionMatcher.bounds line len hmatch

end Remove

end MagiskNative.Patch
