import MagiskNative.Lib.Loop
import MagiskNative.Lib.Layout
import MagiskNative.Lib.Text

/-!
# Patching bytes

`byte_data::patch` searches a buffer for a pattern, overwrites what it finds and goes on behind it.
`hexpatch` takes pattern and replacement as hexadecimal arguments; neither function compares their
lengths.
-/

namespace MagiskNative.HexPatch

open Bytes Layout
open Text (utf8Bytes)

structure Cursor where
  data : List UInt8
  p : Nat
  found : List Nat

def Cursor.start (data : List UInt8) : Cursor := ⟨data, 0, []⟩

/-- A round of `byte_data::patch`. The loop is left with the buffer and the offsets, or with nothing
when a write would leave the buffer. -/
def patchRound (pattern replacement : List UInt8) (s : Cursor) :
    Loop.Round Cursor (Option (List UInt8 × List Nat)) :=
  if s.p < s.data.length then
    match find pattern (s.data.drop s.p) with
    | none => .leave (some (s.data, s.found))
    | some rel =>
        let p := s.p + rel
        if p + max pattern.length replacement.length ≤ s.data.length then
          -- `memset` over the pattern, then `memcpy` of the replacement
          .next ⟨patch (patch s.data p (zeros pattern.length)) p replacement, p + pattern.length,
            s.found ++ [p]⟩
        else .leave none
  else .leave (some (s.data, s.found))

def toAsciiUppercase (b : UInt8) : UInt8 := if 0x61 ≤ b ∧ b ≤ 0x7a then b - 0x20 else b

def hexDigit (b : UInt8) : UInt8 :=
  let digit := toAsciiUppercase b - 0x30
  if 9 < digit then digit - 7 else digit

/-- The loop over `hex.chunks(2)`, which stops at a chunk of one byte. -/
def hex2byte : List UInt8 → List UInt8
  | high :: low :: hex => ((hexDigit high <<< 4) ||| hexDigit low) :: hex2byte hex
  | _ => []

def hexpatchRound (hexFrom hexTo : List UInt8) :
    Cursor → Loop.Round Cursor (Option (List UInt8 × List Nat)) :=
  patchRound (hex2byte hexFrom) (hex2byte hexTo)

theorem length_hex2byte (hex : List UInt8) : (hex2byte hex).length = hex.length / 2 := by
  fun_induction hex2byte hex with
  | case1 high low hex ih =>
      rw [List.length_cons, ih, List.length_cons, List.length_cons]
      omega
  | case2 hex hshort =>
      rcases hex with - | ⟨b, - | ⟨c, hex⟩⟩
      · rfl
      · rw [List.length_singleton, List.length_nil]
      · exact absurd rfl (hshort b c hex)

section Round

variable {pattern replacement : List UInt8} {s t : Cursor}

def Next (pattern buf : List UInt8) (pos : Nat) : Nat → Prop :=
  IsLeast {i | pos ≤ i ∧ pattern <+: buf.drop i}

theorem next_of_find {buf : List UInt8} {pos rel : Nat} (hfind : find pattern (buf.drop pos) = some rel) :
    Next pattern buf pos (pos + rel) := by
  obtain ⟨hmatch, hfirst⟩ := find_eq_some_iff.1 hfind
  rw [List.drop_drop] at hmatch
  refine ⟨⟨Nat.le_add_right _ _, hmatch⟩, ?_⟩
  rintro i ⟨hle, hi⟩
  by_contra hlt
  apply hfirst (i - pos) (by omega)
  rwa [List.drop_drop, Nat.add_sub_cancel' hle]

theorem not_match_of_find {buf : List UInt8} {pos : Nat} (hfind : find pattern (buf.drop pos) = none)
    {i : Nat} (hi : pos ≤ i) : ¬ pattern <+: buf.drop i := by
  have hnone := find_eq_none_iff.1 hfind (i - pos)
  rwa [List.drop_drop, Nat.add_sub_cancel' hi] at hnone

theorem patchRound_cases (pattern replacement : List UInt8) (s : Cursor) :
    (∃ p, Next pattern s.data s.p p ∧ s.p < s.data.length ∧
        if p + max pattern.length replacement.length ≤ s.data.length then
          patchRound pattern replacement s
            = .next ⟨patch (patch s.data p (zeros pattern.length)) p replacement, p + pattern.length,
                s.found ++ [p]⟩
        else patchRound pattern replacement s = .leave none) ∨
      (pattern ≠ [] → ∀ i, s.p ≤ i → ¬ pattern <+: s.data.drop i) ∧
        patchRound pattern replacement s = .leave (some (s.data, s.found)) := by
  rw [patchRound]
  by_cases hp : s.p < s.data.length
  · rw [if_pos hp]
    cases hfind : find pattern (s.data.drop s.p) with
    | none => exact .inr ⟨fun _ i hi => not_match_of_find hfind hi, rfl⟩
    | some rel =>
        refine .inl ⟨s.p + rel, next_of_find hfind, hp, ?_⟩
        simp only
        split
        · rfl
        · rfl
  · rw [if_neg hp]
    refine .inr ⟨fun hpattern i hi hmatch => ?_, rfl⟩
    rw [List.drop_of_length_le (by omega), List.prefix_nil] at hmatch
    exact hpattern hmatch

end Round

/-- The occurrences from `pos` on that a search from the left meets, if it goes on behind each of
them. -/
inductive Greedy (pattern buf : List UInt8) : Nat → List Nat → Prop
  | done {pos : Nat} (hnone : ∀ i, pos ≤ i → ¬ pattern <+: buf.drop i) : Greedy pattern buf pos []
  | next {pos off : Nat} {offs : List Nat} (hnext : Next pattern buf pos off)
      (hrest : Greedy pattern buf (off + pattern.length) offs) : Greedy pattern buf pos (off :: offs)

section Greedy

variable {pattern buf buf' : List UInt8} {pos : Nat} {offs : List Nat}

theorem Greedy.le_of_mem (hgreedy : Greedy pattern buf pos offs) {off : Nat} (hoff : off ∈ offs) :
    pos ≤ off := by
  induction hgreedy with
  | done => cases hoff
  | next hnext _ ih =>
      have hle := hnext.1.1
      rcases List.mem_cons.1 hoff with rfl | hoff
      · exact hle
      · have hbehind := ih hoff
        omega

theorem Greedy.congr (hgreedy : Greedy pattern buf pos offs)
    (hsame : ∀ i, pos ≤ i → buf'.drop i = buf.drop i) : Greedy pattern buf' pos offs := by
  induction hgreedy with
  | done hnone =>
      refine .done fun i hi => ?_
      rw [hsame i hi]
      exact hnone i hi
  | @next pos off offs hnext _ ih =>
      have hle := hnext.1.1
      refine .next ⟨⟨hle, ?_⟩, ?_⟩ (ih fun i hi => hsame i (by omega))
      · rw [hsame off hle]
        exact hnext.1.2
      · rintro i ⟨hi, hmatch⟩
        rw [hsame i hi] at hmatch
        exact hnext.2 ⟨hi, hmatch⟩

end Greedy

/-- `out` is `buf` with the replacement, filled up with zeros, at each of the offsets. -/
structure Replaced (pattern replacement buf out : List UInt8) (offs : List Nat) : Prop where
  length : out.length = buf.length
  inside : ∀ off ∈ offs, slice out off pattern.length
    = replacement ++ zeros (pattern.length - replacement.length)
  outside : ∀ i, (∀ off ∈ offs, i < off ∨ off + pattern.length ≤ i) → out[i]? = buf[i]?

section Replace

variable {pattern replacement : List UInt8} {s t : Cursor}

theorem getElem?_write (buf : List UInt8) {p i : Nat}
    (hi : i < p ∨ p + max pattern.length replacement.length ≤ i) :
    (patch (patch buf p (zeros pattern.length)) p replacement)[i]? = buf[i]? := by
  rw [getElem?_patch, if_neg (by omega), getElem?_patch, length_zeros, if_neg (by omega)]

theorem slice_write (hle : replacement.length ≤ pattern.length) {buf : List UInt8} {p : Nat}
    (hroom : p + pattern.length ≤ buf.length) :
    slice (patch (patch buf p (zeros pattern.length)) p replacement) p pattern.length
      = replacement ++ zeros (pattern.length - replacement.length) := by
  have hzeros : slice (patch buf p (zeros pattern.length)) p pattern.length = zeros pattern.length := by
    have hself := @slice_patch_self _ p buf (zeros pattern.length) (by rwa [length_zeros])
    rwa [length_zeros] at hself
  have hinside := @slice_patch_inside _ pattern.length p (patch buf p (zeros pattern.length)) replacement 0
    (by omega)
  rw [Nat.add_zero, hzeros] at hinside
  rw [hinside]
  apply List.ext_getElem?
  intro i
  rw [getElem?_patch, length_zeros]
  by_cases hi : i < replacement.length
  · rw [if_pos (by omega), if_pos (by omega), Nat.sub_zero, List.getElem?_append_left hi]
  · rw [if_neg (by omega), List.getElem?_append_right (by omega), zeros, zeros, List.getElem?_replicate,
      List.getElem?_replicate]
    exact if_congr (by omega) rfl rfl

variable (hpattern : pattern ≠ []) (hle : replacement.length ≤ pattern.length)

include hpattern hle

theorem run_patchRound {rounds : Nat} {s : Cursor} (hrounds : s.data.length - s.p < rounds) :
    ∃ out offs, Loop.run (patchRound pattern replacement) rounds s = some (some (out, s.found ++ offs)) ∧
      Greedy pattern s.data s.p offs ∧ Replaced pattern replacement s.data out offs := by
  have hpos := List.length_pos_of_ne_nil hpattern
  induction rounds generalizing s with
  | zero => omega
  | succ rounds ih =>
      rcases patchRound_cases pattern replacement s with ⟨p, hnext, hp, hround⟩ | ⟨hnone, hround⟩
      · obtain ⟨hfirst, hmatch⟩ := hnext.1
        have hroom : p + pattern.length ≤ s.data.length := by
          have hlength := hmatch.length_le
          rw [List.length_drop] at hlength
          omega
        rw [if_pos (by omega)] at hround
        rw [Loop.run_succ_next hround]
        set data := patch (patch s.data p (zeros pattern.length)) p replacement with hdata
        have hlength : data.length = s.data.length := by rw [hdata, length_patch, length_patch]
        have houtside : ∀ i, i < p ∨ p + pattern.length ≤ i → data[i]? = s.data[i]? := by
          intro i hi
          exact getElem?_write s.data (by omega)
        obtain ⟨out, offs, hrun, hgreedy, hreplaced⟩ :=
          @ih ⟨data, p + pattern.length, s.found ++ [p]⟩ (by simp only; omega)
        -- The search goes on behind the write, so what it finds is what was there.
        have hbehind : Greedy pattern s.data (p + pattern.length) offs := by
          refine hgreedy.congr fun i hi => ?_
          simp only at hi
          apply List.ext_getElem?
          intro j
          rw [List.getElem?_drop, List.getElem?_drop, houtside (i + j) (by omega)]
        refine ⟨out, p :: offs, ?_, .next hnext hbehind, ?_, ?_, ?_⟩
        · rw [hrun, List.append_assoc, List.singleton_append]
        · exact hreplaced.length.trans hlength
        · intro off hoff
          rcases List.mem_cons.1 hoff with rfl | hoff
          · rw [← slice_write hle hroom]
            apply List.ext_getElem?
            intro i
            rw [getElem?_slice, getElem?_slice]
            split
            · refine hreplaced.outside _ fun other hother => .inl ?_
              have hge := hbehind.le_of_mem hother
              omega
            · rfl
          · exact hreplaced.inside off hoff
        · intro i hi
          rw [List.forall_mem_cons] at hi
          rw [hreplaced.outside i hi.2, houtside i hi.1]
      · refine ⟨s.data, [], ?_, .done (hnone hpattern), rfl, by simp, fun _ _ => rfl⟩
        rw [Loop.run_succ_leave hround, List.append_nil]

/-- **What is patched.** The occurrences are those of the buffer as it was. -/
theorem patch_replaces (buf : List UInt8) :
    ∃ out offs, Loop.run (patchRound pattern replacement) (buf.length + 1) (.start buf)
        = some (some (out, offs)) ∧
      Greedy pattern buf 0 offs ∧ Replaced pattern replacement buf out offs :=
  run_patchRound hpattern hle (by simp only [Cursor.start]; omega)

end Replace

/-- The second of two overlapping occurrences is left alone, and so is one that the replacement makes. -/
theorem patch_replaces_aaa :
    ∃ out offs, Loop.run (patchRound [1, 1] [1]) 4 (.start [1, 1, 1]) = some (some (out, offs)) ∧
      Greedy [1, 1] [1, 1, 1] 0 offs ∧ Replaced [1, 1] [1] [1, 1, 1] out offs :=
  patch_replaces (by decide) (by decide) [1, 1, 1]

/-- The loop ends, goes forward in every round that is not its last, and writes nothing outside the
buffer. -/
structure Safe (hexFrom hexTo buf : List UInt8) : Prop where
  ends : Loop.Ends (hexpatchRound hexFrom hexTo) (.start buf)
  advances : ∀ s t, Loop.Visits (hexpatchRound hexFrom hexTo) (.start buf) s →
    hexpatchRound hexFrom hexTo s = .next t → s.p < t.p
  inside : ∀ s, Loop.Visits (hexpatchRound hexFrom hexTo) (.start buf) s →
    hexpatchRound hexFrom hexTo s ≠ .leave none

section Safe

variable {pattern replacement : List UInt8} {hexFrom hexTo : List UInt8}

theorem lt_of_next {s t : Cursor} (hpattern : pattern ≠ [])
    (hround : patchRound pattern replacement s = .next t) :
    s.p < t.p := by
  have hpos := List.length_pos_of_ne_nil hpattern
  rcases patchRound_cases pattern replacement s with ⟨p, hnext, -, hp⟩ | ⟨-, hleave⟩
  · have hfirst := hnext.1.1
    split at hp
    · rw [hround] at hp
      cases hp
      simp only
      omega
    · rw [hround] at hp
      cases hp
  · rw [hround] at hleave
    cases hleave

theorem ne_leave_none (hpattern : pattern ≠ []) (hle : replacement.length ≤ pattern.length) (s : Cursor) :
    patchRound pattern replacement s ≠ .leave none := by
  rcases patchRound_cases pattern replacement s with ⟨p, hnext, hp, hround⟩ | ⟨-, hleave⟩
  · have hlength := hnext.1.2.length_le
    rw [List.length_drop] at hlength
    have hpos := List.length_pos_of_ne_nil hpattern
    rw [if_pos (by omega)] at hround
    rw [hround]
    nofun
  · rw [hleave]
    nofun

theorem lt_length_of_next {s t : Cursor} (hround : patchRound pattern replacement s = .next t) :
    s.p < s.data.length ∧ t.data.length = s.data.length := by
  rcases patchRound_cases pattern replacement s with ⟨p, -, hlt, hp⟩ | ⟨-, hleave⟩
  · refine ⟨hlt, ?_⟩
    split at hp
    · rw [hround] at hp
      cases hp
      rw [length_patch, length_patch]
    · rw [hround] at hp
      cases hp
  · rw [hround] at hleave
    cases hleave

theorem ends_of_ne_nil (hpattern : pattern ≠ []) (s : Cursor) :
    Loop.Ends (patchRound pattern replacement) s := by
  apply Loop.ends_of_measure (μ := fun s => s.data.length - s.p)
  intro s t _ hround
  have hlt := lt_of_next hpattern hround
  have hlength := lt_length_of_next hround
  omega

/-- The text splits into pieces and a rest. Behind `ahead`, the bytes that the replacement before has
left there, each piece ends where the replacement for the first occurrence in it ends, and the rest has
no occurrence. -/
def Pieces (pattern replacement : List UInt8) : List UInt8 → List (List UInt8) → List UInt8 → Prop
  | ahead, [], rest => find pattern (ahead ++ rest) = none
  | ahead, piece :: pieces, rest =>
      (∃ i, find pattern (ahead ++ piece) = some i ∧ (ahead ++ piece).length = i + replacement.length) ∧
        Pieces pattern replacement (replacement.drop pattern.length) pieces rest

theorem find_append_iff {x y : List UInt8} {i : Nat} (hi : i + pattern.length ≤ x.length) :
    find pattern (x ++ y) = some i ↔ find pattern x = some i := by
  have hsame : ∀ j ≤ i, (pattern <+: (x ++ y).drop j ↔ pattern <+: x.drop j) := by
    intro j hj
    rw [List.drop_append_of_le_length (by omega)]
    refine ⟨fun h => ?_, fun h => h.trans (List.prefix_append _ _)⟩
    exact List.prefix_of_prefix_length_le h (List.prefix_append _ _) (by rw [List.length_drop]; omega)
  rw [find_eq_some_iff, find_eq_some_iff, hsame i le_rfl]
  exact and_congr_right fun _ => forall₂_congr fun j hj => not_congr (hsame j hj.le)

/-- Behind the write stand the bytes by which the replacement is longer, and what they leave over. -/
theorem drop_write (hlong : pattern.length ≤ replacement.length) {buf : List UInt8} {p : Nat}
    (hroom : p + replacement.length ≤ buf.length) :
    (patch (patch buf p (zeros pattern.length)) p replacement).drop (p + pattern.length)
      = replacement.drop pattern.length ++ buf.drop (p + replacement.length) := by
  have hwritten : (patch (patch buf p (zeros pattern.length)) p replacement).drop p
      = replacement ++ buf.drop (p + replacement.length) := by
    rw [← slice_append_drop _ p replacement.length, slice_patch_self (by rwa [length_patch]),
      drop_patch le_rfl, drop_patch (by rw [length_zeros]; omega)]
  rw [← List.drop_drop, hwritten, List.drop_append_of_le_length hlong]

/-- A round in terms of the text from the position on. -/
theorem patchRound_text (hlong : pattern.length ≤ replacement.length) (hpattern : pattern ≠ []) {s : Cursor}
    {text : List UInt8} (htext : s.data.drop s.p = text) :
    match find pattern text with
    | none => patchRound pattern replacement s = .leave (some (s.data, s.found))
    | some i =>
        if i + replacement.length ≤ text.length then
          ∃ t : Cursor, patchRound pattern replacement s = .next t ∧
            t.data.drop t.p = replacement.drop pattern.length ++ text.drop (i + replacement.length)
        else patchRound pattern replacement s = .leave none := by
  have hlength := congrArg List.length htext
  rw [List.length_drop] at hlength
  rw [patchRound]
  by_cases hp : s.p < s.data.length
  · rw [if_pos hp, htext]
    cases hfind : find pattern text with
    | none => rfl
    | some i =>
        simp only [Nat.max_eq_right hlong]
        by_cases hroom : i + replacement.length ≤ text.length
        · rw [if_pos hroom, if_pos (by omega)]
          refine ⟨_, rfl, ?_⟩
          rw [drop_write hlong (by omega), ← htext, List.drop_drop, Nat.add_assoc]
        · rw [if_neg hroom, if_neg (by omega)]
  · have hnil : text = [] := List.eq_nil_of_length_eq_zero (by omega)
    have hfind : find pattern text = none := by
      rw [find_eq_none_iff, hnil]
      intro i hmatch
      rw [List.drop_nil, List.prefix_nil] at hmatch
      exact hpattern hmatch
    rw [hfind, if_neg hp]

section Long

variable (hlong : pattern.length ≤ replacement.length) (hpattern : pattern ≠ [])

include hlong hpattern

/-- The induction is on the pieces. -/
theorem ne_leave_none_of_pieces {pieces : List (List UInt8)} {ahead rest : List UInt8}
    (hpieces : Pieces pattern replacement ahead pieces rest) {s t : Cursor}
    (hs : s.data.drop s.p = ahead ++ (pieces.flatten ++ rest))
    (hvisits : Loop.Visits (patchRound pattern replacement) s t) :
    patchRound pattern replacement t ≠ .leave none := by
  have hround := patchRound_text hlong hpattern hs
  induction pieces generalizing ahead s with
  | nil =>
      rw [show find pattern (ahead ++ ([].flatten ++ rest)) = none from hpieces] at hround
      rcases hvisits.eq_or_next with rfl | ⟨u, hnext, -⟩
      · rw [hround]
        nofun
      · rw [hround] at hnext
        cases hnext
  | cons piece pieces ih =>
      obtain ⟨⟨i, hfind, hlength⟩, hrest⟩ := hpieces
      have htext : ahead ++ ((piece :: pieces).flatten ++ rest)
          = (ahead ++ piece) ++ (pieces.flatten ++ rest) := by
        rw [List.flatten_cons, List.append_assoc, List.append_assoc]
      rw [htext, (find_append_iff (by omega)).2 hfind] at hround
      simp only at hround
      rw [if_pos (by rw [List.length_append, hlength]; omega), ← hlength, List.drop_left] at hround
      obtain ⟨u, hnext, hu⟩ := hround
      rcases hvisits.eq_or_next with rfl | ⟨u', hnext', hvisits⟩
      · rw [hnext]
        nofun
      · rw [hnext] at hnext'
        cases hnext'
        exact ih hrest hu hvisits (patchRound_text hlong hpattern hu)

/-- The induction is on what is left of the text. -/
theorem exists_pieces {ahead text : List UInt8}
    (hahead : ahead.length ≤ replacement.length - pattern.length) {s : Cursor}
    (hs : s.data.drop s.p = ahead ++ text)
    (hinside : ∀ t, Loop.Visits (patchRound pattern replacement) s t →
      patchRound pattern replacement t ≠ .leave none) :
    ∃ pieces rest, text = pieces.flatten ++ rest ∧ Pieces pattern replacement ahead pieces rest := by
  have hpos := List.length_pos_of_ne_nil hpattern
  induction hn : text.length using Nat.strong_induction_on generalizing ahead text s with
  | _ n ih =>
      have hround := patchRound_text hlong hpattern hs
      cases hfind : find pattern (ahead ++ text) with
      | none => exact ⟨[], text, rfl, hfind⟩
      | some i =>
          rw [hfind] at hround
          simp only at hround
          by_cases hroom : i + replacement.length ≤ (ahead ++ text).length
          · rw [if_pos hroom] at hround
            obtain ⟨t, hnext, ht⟩ := hround
            rw [List.length_append] at hroom
            set k := i + replacement.length - ahead.length with hk
            have hpiece : ahead ++ text = (ahead ++ text.take k) ++ text.drop k := by
              rw [List.append_assoc, List.take_append_drop]
            have hlength : (ahead ++ text.take k).length = i + replacement.length := by
              rw [List.length_append, List.length_take]
              omega
            rw [hpiece, ← hlength, List.drop_left] at ht
            obtain ⟨pieces, rest, hsplit, hpieces⟩ := ih (text.drop k).length
              (by rw [List.length_drop]; omega) (by rw [List.length_drop]) ht
              (fun u hvisits => hinside u (hvisits.of_next hnext)) rfl
            refine ⟨text.take k :: pieces, rest, ?_, ⟨i, ?_, hlength⟩, hpieces⟩
            · rw [List.flatten_cons, List.append_assoc, ← hsplit, List.take_append_drop]
            · rw [hpiece] at hfind
              exact (find_append_iff (by omega)).1 hfind
          · rw [if_neg hroom] at hround
            exact absurd hround (hinside s .start)

end Long

theorem patchRound_of_starts {buf : List UInt8} (hbuf : buf ≠ []) (hstarts : pattern <+: buf)
    (found : List Nat) :
    patchRound pattern replacement ⟨buf, 0, found⟩
      = if max pattern.length replacement.length ≤ buf.length then
          .next ⟨patch (patch buf 0 (zeros pattern.length)) 0 replacement, pattern.length, found ++ [0]⟩
        else .leave none := by
  have hfind : find pattern buf = some 0 := find_eq_some_iff.2 ⟨hstarts, fun j hj => by omega⟩
  rw [patchRound, if_pos (List.length_pos_of_ne_nil hbuf), List.drop_zero, hfind]
  simp only [Nat.add_zero, Nat.zero_add]

theorem safe_iff_inside {buf : List UInt8} (hpattern : hex2byte hexFrom ≠ []) :
    Safe hexFrom hexTo buf ↔ ∀ s, Loop.Visits (hexpatchRound hexFrom hexTo) (.start buf) s →
      hexpatchRound hexFrom hexTo s ≠ .leave none :=
  ⟨fun hsafe => hsafe.inside, fun hinside =>
    ⟨ends_of_ne_nil hpattern _, fun _ _ _ hround => lt_of_next hpattern hround, hinside⟩⟩

theorem safe_nil (hexFrom hexTo : List UInt8) : Safe hexFrom hexTo [] := by
  have hleave : hexpatchRound hexFrom hexTo (.start []) = .leave (some ([], [])) := rfl
  have hstart : ∀ s, Loop.Visits (hexpatchRound hexFrom hexTo) (.start []) s → s = .start [] := by
    intro s hvisits
    rcases hvisits.eq_or_next with rfl | ⟨u, hnext, -⟩
    · rfl
    · rw [hleave] at hnext
      cases hnext
  refine ⟨⟨1, _, Loop.run_succ_leave hleave 0⟩, fun s t hvisits hnext => ?_, fun s hvisits => ?_⟩
  · rw [hstart s hvisits, hleave] at hnext
    cases hnext
  · rw [hstart s hvisits, hleave]
    nofun

/-- The search for nothing finds it where it is. -/
theorem not_safe_of_nil {buf : List UInt8} (hbuf : buf ≠ []) (hpattern : hex2byte hexFrom = []) :
    ¬ Safe hexFrom hexTo buf := by
  intro hsafe
  have hround := @patchRound_of_starts (hex2byte hexFrom) (hex2byte hexTo) buf hbuf
    (by rw [hpattern]; exact List.nil_prefix) []
  split at hround
  · have hlt := hsafe.advances _ _ .start hround
    simp only [Cursor.start, hpattern, List.length_nil] at hlt
    omega
  · exact hsafe.inside _ .start hround

/-- **One file.** It is patched safely exactly if it is empty, or if the pattern has a whole byte and
either the replacement is not longer or every occurrence that the search meets has room for it. -/
theorem hexpatch_safe_iff (hexFrom hexTo buf : List UInt8) :
    Safe hexFrom hexTo buf ↔ buf = [] ∨ 2 ≤ hexFrom.length ∧
      (hexTo.length / 2 ≤ hexFrom.length / 2 ∨ ∃ pieces rest, buf = pieces.flatten ++ rest ∧
        Pieces (hex2byte hexFrom) (hex2byte hexTo) [] pieces rest) := by
  by_cases hbuf : buf = []
  · subst hbuf
    exact ⟨fun _ => .inl rfl, fun _ => safe_nil hexFrom hexTo⟩
  · by_cases hpattern : hex2byte hexFrom = []
    · have hshort := length_hex2byte hexFrom
      rw [hpattern, List.length_nil] at hshort
      refine ⟨fun hsafe => absurd hsafe (not_safe_of_nil hbuf hpattern), ?_⟩
      rintro (hnil | ⟨hfrom, -⟩)
      · exact absurd hnil hbuf
      · omega
    · have hpos := List.length_pos_of_ne_nil hpattern
      rw [safe_iff_inside hpattern, ← length_hex2byte, ← length_hex2byte]
      by_cases hle : (hex2byte hexTo).length ≤ (hex2byte hexFrom).length
      · refine ⟨fun _ => .inr ⟨?_, .inl hle⟩, fun _ s _ => ne_leave_none hpattern hle s⟩
        rw [length_hex2byte] at hpos
        omega
      · constructor
        · intro hinside
          refine .inr ⟨?_, .inr (exists_pieces (by omega) hpattern (Nat.zero_le _) ?_ hinside)⟩
          · rw [length_hex2byte] at hpos
            omega
          · rfl
        · rintro (hnil | ⟨-, hle' | ⟨pieces, rest, hsplit, hpieces⟩⟩)
          · exact absurd hnil hbuf
          · exact absurd hle' hle
          · exact fun s => ne_leave_none_of_pieces (by omega) hpattern hpieces hsplit

end Safe

/-- One digit is no byte: the search for nothing finds it at the first byte of the file over and over.
A replacement that is longer than the pattern is written over the end of the file. -/
theorem not_safe_digit :
    (∀ rounds, Loop.run (hexpatchRound (utf8Bytes "a") []) rounds (.start [7]) = none) ∧
      ¬ Safe (utf8Bytes "a") [] [7] ∧
      ¬ Safe (utf8Bytes "61") (utf8Bytes "6162") (utf8Bytes "a") := by
  have hround : ∀ found, hexpatchRound (utf8Bytes "a") [] ⟨[7], 0, found⟩
      = .next ⟨[7], 0, found ++ [0]⟩ := fun found =>
    patchRound_of_starts (by decide) List.nil_prefix found
  have hrun : ∀ rounds found,
      Loop.run (hexpatchRound (utf8Bytes "a") []) rounds ⟨[7], 0, found⟩ = none := by
    intro rounds
    induction rounds with
    | zero => exact fun _ => rfl
    | succ rounds ih =>
        intro found
        rw [Loop.run_succ_next (hround found)]
        exact ih _
  refine ⟨fun rounds => hrun rounds [], fun hsafe => ?_, fun hsafe => ?_⟩
  · obtain ⟨rounds, result, hends⟩ := hsafe.ends
    rw [Cursor.start, hrun rounds []] at hends
    cases hends
  · exact hsafe.inside _ .start (by rfl)

end MagiskNative.HexPatch
