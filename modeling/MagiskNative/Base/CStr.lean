import MagiskNative.Lib.Bytes
import MagiskNative.Lib.Text

/-!
# Fixed string buffers

`Utf8CStrBufRef` and `Utf8CStrBufArr<N>` of `base/cstr.rs`: an array of `N` bytes with a string at its
beginning that a zero byte ends. What does not fit is cut off after a byte, not after a character.
-/

namespace MagiskNative.Base

open Text

structure Utf8CStrBuf (N : Nat) where
  used : Nat
  buf : List UInt8
  length_buf : buf.length = N

def copyCstrTruncate (dest src : List UInt8) : List UInt8 × Nat :=
  if dest.length ≤ 1 then (dest, 0)
  else
    let len := min src.length (dest.length - 1)
    ((Bytes.patch dest 0 (src.take len)).set len 0, len)

/-- `CStr::from_bytes_until_nul`, without the zero byte. -/
def fromBytesUntilNul (bytes : List UInt8) : Option (List UInt8) :=
  if 0 ∈ bytes then some (bytes.takeWhile (· ≠ 0)) else none

namespace Utf8CStrBuf

variable {N : Nat}

def new (N : Nat) : Utf8CStrBuf N := ⟨0, List.replicate N 0, List.length_replicate⟩

def content (b : Utf8CStrBuf N) : List UInt8 := b.buf.take b.used

def endAt (b : Utf8CStrBuf N) (i : Nat) : Utf8CStrBuf N :=
  ⟨i, b.buf.set i 0, List.length_set.trans b.length_buf⟩

def pushStr (b : Utf8CStrBuf N) (s : String) : Utf8CStrBuf N × Nat :=
  let copied := copyCstrTruncate (b.buf.drop b.used) (utf8Bytes s)
  (⟨b.used + copied.2, Bytes.patch b.buf b.used copied.1, (Bytes.length_patch _ _ _).trans b.length_buf⟩,
    copied.2)

def writeStr (b : Utf8CStrBuf N) (s : String) : Utf8CStrBuf N := (b.pushStr s).1

def clear (b : Utf8CStrBuf N) : Utf8CStrBuf N := b.endAt 0

def truncate (b : Utf8CStrBuf N) (newLen : Nat) : Utf8CStrBuf N :=
  if b.used ≤ newLen then b else b.endAt newLen

def rebuild (b : Utf8CStrBuf N) : Utf8CStrBuf N × Bool :=
  match fromBytesUntilNul b.buf with
  | some s => if (ofUtf8? s).isSome then (⟨s.length, b.buf, b.length_buf⟩, true) else (b.endAt 0, false)
  | none => (b.endAt 0, false)

def parent (b : Utf8CStrBuf N) (path : String) : Utf8CStrBuf N :=
  let b := if StartsWith path "/" then b.clear else b
  if b.used ≠ 0 ∧ b.content.getLast? ≠ some 0x2f then (b.pushStr "/").1 else b

def appendPath (b : Utf8CStrBuf N) (path : String) : Utf8CStrBuf N := ((b.parent path).pushStr path).1

inductive Call where
  | pushStr (s : String)
  | writeStr (s : String)
  | appendPath (path : String)
  | truncate (newLen : Nat)
  | clear
  | rebuild

def call (b : Utf8CStrBuf N) : Call → Utf8CStrBuf N
  | .pushStr s => (b.pushStr s).1
  | .writeStr s => b.writeStr s
  | .appendPath path => b.appendPath path
  | .truncate newLen => b.truncate newLen
  | .clear => b.clear
  | .rebuild => b.rebuild.1

/-- What the unchecked conversions to `Utf8CStr` and `str` rely on. -/
structure Valid (b : Utf8CStrBuf N) : Prop where
  used_le : b.used ≤ N - 1
  nul : b.buf[b.used]? = some 0
  utf8 : (ofUtf8? b.content).isSome

def Holds (b : Utf8CStrBuf N) (bs : List UInt8) : Prop :=
  b.used = bs.length ∧ ∃ unused, b.buf = bs ++ 0 :: unused

variable {b : Utf8CStrBuf N} {bs : List UInt8}

theorem Holds.content_eq (hb : b.Holds bs) : b.content = bs := by
  obtain ⟨hused, unused, hbuf⟩ := hb
  rw [content, hused, hbuf, List.take_left]

theorem holds_content (hnul : b.buf[b.used]? = some 0) : b.Holds b.content := by
  obtain ⟨hlt, hget⟩ := List.getElem?_eq_some_iff.1 hnul
  refine ⟨?_, b.buf.drop (b.used + 1), ?_⟩
  · rw [content, List.length_take, min_eq_left hlt.le]
  · rw [← hget, List.getElem_cons_drop, content, List.take_append_drop]

theorem Holds.valid_iff (hb : b.Holds bs) : b.Valid ↔ (ofUtf8? bs).isSome := by
  refine ⟨fun hvalid => hb.content_eq ▸ hvalid.utf8, fun hutf => ⟨?_, ?_, hb.content_eq.symm ▸ hutf⟩⟩
  · obtain ⟨hused, unused, hbuf⟩ := hb
    have hlen := b.length_buf
    rw [hbuf, List.length_append, List.length_cons] at hlen
    omega
  · obtain ⟨hused, unused, hbuf⟩ := hb
    rw [hused, hbuf, List.getElem?_append_right le_rfl, Nat.sub_self]
    rfl

theorem length_copyCstrTruncate (dest src : List UInt8) :
    (copyCstrTruncate dest src).1.length = dest.length := by
  unfold copyCstrTruncate
  split
  · rfl
  · rw [List.length_set, Bytes.length_patch]

theorem copyCstrTruncate_eq (unused src : List UInt8) :
    ∃ unused', copyCstrTruncate (0 :: unused) src =
      (src.take unused.length ++ 0 :: unused', (src.take unused.length).length) := by
  cases hunused : unused with
  | nil => exact ⟨[], rfl⟩
  | cons u us =>
      rw [← hunused]
      set part := src.take unused.length with hpart
      have hlen : min src.length ((0 :: unused).length - 1) = part.length := by
        rw [hpart, List.length_take, min_comm]
        rfl
      have htake : src.take part.length = part := by
        rw [hpart, List.length_take, ← List.take_take, List.take_length]
      have hlt : part.length < (0 :: unused).length := by
        rw [hpart, List.length_take, List.length_cons]
        omega
      -- the bytes that are overwritten, the one that becomes zero, and those that stay
      have hsplit := List.take_append_drop part.length (0 :: unused)
      rw [← List.getElem_cons_drop hlt] at hsplit
      have hold : part.length = ((0 :: unused).take part.length).length :=
        (List.length_take_of_le hlt.le).symm
      have hpatch := Bytes.patch_append [] ((0 :: unused)[part.length] :: (0 :: unused).drop (part.length + 1)) hold
      rw [List.nil_append, List.nil_append, List.length_nil, hsplit] at hpatch
      refine ⟨(0 :: unused).drop (part.length + 1), ?_⟩
      unfold copyCstrTruncate
      rw [if_neg (by simp [hunused]), hlen]
      dsimp only
      rw [htake, hpatch, List.set_append_right _ _ le_rfl, Nat.sub_self, List.set_cons_zero]

theorem Holds.pushStr (hb : b.Holds bs) (s : String) :
    (b.pushStr s).1.Holds (bs ++ (utf8Bytes s).take (N - 1 - bs.length)) := by
  obtain ⟨hused, unused, hbuf⟩ := hb
  have hlen := b.length_buf
  rw [hbuf, List.length_append, List.length_cons] at hlen
  have hroom : N - 1 - bs.length = unused.length := by omega
  have hdrop : b.buf.drop b.used = 0 :: unused := by rw [hused, hbuf, List.drop_left]
  obtain ⟨unused', hcopy⟩ := copyCstrTruncate_eq unused (utf8Bytes s)
  have hlength := length_copyCstrTruncate (0 :: unused) (utf8Bytes s)
  have hpatch := Bytes.patch_append bs [] hlength
  rw [List.append_nil, List.append_nil, hcopy, ← hbuf, ← hused] at hpatch
  rw [hroom]
  refine ⟨?_, unused', ?_⟩
  · simp only [Utf8CStrBuf.pushStr, hdrop, hcopy, List.length_append]
    rw [hused]
  · simp only [Utf8CStrBuf.pushStr, hdrop, hcopy, hpatch, List.append_assoc]

theorem Holds.endAt (hb : b.Holds bs) {i : Nat} (hi : i ≤ bs.length) : (b.endAt i).Holds (bs.take i) := by
  obtain ⟨-, unused, hbuf⟩ := hb
  have hlt : i < b.buf.length := by
    rw [hbuf, List.length_append, List.length_cons]
    omega
  refine ⟨(List.length_take_of_le hi).symm, b.buf.drop (i + 1), ?_⟩
  calc
    b.buf.set i 0 = b.buf.take i ++ 0 :: b.buf.drop (i + 1) := by
      rw [List.set_eq_take_append_cons_drop, if_pos hlt]
    _ = bs.take i ++ 0 :: b.buf.drop (i + 1) := by
      rw [hbuf, List.take_append_of_le_length hi]

theorem Holds.clear (hb : b.Holds bs) : b.clear.Holds [] := hb.endAt (Nat.zero_le _)

theorem Holds.truncate (hb : b.Holds bs) (newLen : Nat) : (b.truncate newLen).Holds (bs.take newLen) := by
  unfold Utf8CStrBuf.truncate
  split
  case isTrue hle => rwa [List.take_of_length_le (hb.1 ▸ hle)]
  case isFalse hlt => exact hb.endAt (hb.1 ▸ (Nat.lt_of_not_le hlt).le)

theorem exists_of_fromBytesUntilNul {bytes s : List UInt8} (hs : fromBytesUntilNul bytes = some s) :
    ∃ unused, bytes = s ++ 0 :: unused := by
  unfold fromBytesUntilNul at hs
  split_ifs at hs with hmem
  cases hs
  induction bytes with
  | nil => cases hmem
  | cons byte bytes ih =>
      by_cases hbyte : byte = 0
      · exact ⟨bytes, by simp [hbyte]⟩
      · obtain ⟨unused, hunused⟩ := ih (List.mem_of_ne_of_mem (Ne.symm hbyte) hmem)
        refine ⟨unused, ?_⟩
        rw [List.takeWhile_cons_of_pos (by simpa using hbyte), List.cons_append, ← hunused]

theorem isSome_ofUtf8?_nil : (ofUtf8? []).isSome := Text.isSome_ofUtf8?_iff.2 ⟨"", rfl⟩

theorem Holds.rebuild (hb : b.Holds bs) : ∃ bs', b.rebuild.1.Holds bs' ∧ (ofUtf8? bs').isSome := by
  unfold Utf8CStrBuf.rebuild
  split
  case h_1 s hs =>
    split
    case isTrue hutf => exact ⟨s, ⟨rfl, exists_of_fromBytesUntilNul hs⟩, hutf⟩
    case isFalse => exact ⟨[], hb.clear, isSome_ofUtf8?_nil⟩
  case h_2 => exact ⟨[], hb.clear, isSome_ofUtf8?_nil⟩

/-- A text is cut, if at all, between two of its characters. -/
def KeepsChars (b : Utf8CStrBuf N) (s : String) : Prop :=
  (ofUtf8? ((utf8Bytes s).take (N - 1 - b.used))).isSome

def CutsBetweenChars (b : Utf8CStrBuf N) : Call → Prop
  | .pushStr s | .writeStr s => b.KeepsChars s
  | .appendPath path => (b.parent path).KeepsChars path
  | _ => True

/-- `truncate` is called with the length of a text with which the string begins, or with at least its length. -/
def AtBoundary (b : Utf8CStrBuf N) : Call → Prop
  | .truncate newLen => newLen < b.used → ∃ s t, b.content = utf8Bytes s ++ utf8Bytes t ∧
      newLen = (utf8Bytes s).length
  | _ => True

theorem valid_pushStr_iff (hb : b.Valid) (s : String) : (b.pushStr s).1.Valid ↔ b.KeepsChars s := by
  have hholds := holds_content hb.nul
  rw [(hholds.pushStr s).valid_iff, isSome_ofUtf8?_append hb.utf8, KeepsChars, hholds.1]

theorem valid_clear (hb : b.Valid) : b.clear.Valid :=
  (holds_content hb.nul).clear.valid_iff.2 isSome_ofUtf8?_nil

theorem valid_parent (hb : b.Valid) (path : String) : (b.parent path).Valid := by
  -- a single byte is either pushed or not
  have hslash : ∀ b : Utf8CStrBuf N, b.KeepsChars "/" := by
    intro b
    unfold KeepsChars
    cases N - 1 - b.used with
    | zero => exact isSome_ofUtf8?_nil
    | succ room =>
        rw [List.take_of_length_le (Nat.succ_le_succ (Nat.zero_le room)), ofUtf8?_utf8Bytes]
        rfl
  have hcleared : (if StartsWith path "/" then b.clear else b).Valid := by
    split
    · exact valid_clear hb
    · exact hb
  unfold parent
  dsimp only
  generalize (if StartsWith path "/" then b.clear else b) = cleared at hcleared ⊢
  split
  · exact (valid_pushStr_iff hcleared "/").2 (hslash _)
  · exact hcleared

theorem valid_call_iff (hb : b.Valid) {call : Call} (hcall : b.AtBoundary call) :
    (b.call call).Valid ↔ b.CutsBetweenChars call := by
  have hholds := holds_content hb.nul
  cases call with
  | pushStr s => exact valid_pushStr_iff hb s
  | writeStr s => exact valid_pushStr_iff hb s
  | appendPath path => exact valid_pushStr_iff (valid_parent hb path) path
  | truncate newLen =>
      refine iff_of_true ((hholds.truncate newLen).valid_iff.2 ?_) trivial
      rcases Nat.lt_or_ge newLen b.used with hlt | hle
      · obtain ⟨s, t, hcontent, rfl⟩ := hcall hlt
        rw [hcontent, List.take_left, ofUtf8?_utf8Bytes]
        rfl
      · rw [List.take_of_length_le (hholds.1 ▸ hle)]
        exact hb.utf8
  | clear => exact iff_of_true (valid_clear hb) trivial
  | rebuild =>
      obtain ⟨bs', hrebuild, hutf⟩ := hholds.rebuild
      exact iff_of_true (hrebuild.valid_iff.2 hutf) trivial

theorem valid_new (hN : 0 < N) : (new N).Valid := by
  refine ⟨Nat.zero_le _, ?_, isSome_ofUtf8?_nil⟩
  exact List.getElem?_replicate_of_lt hN

def Along (p : Utf8CStrBuf N → Call → Prop) (b : Utf8CStrBuf N) : List Call → Prop
  | [] => True
  | call :: calls => p b call ∧ Along p (b.call call) calls

/-- **Validity.** A buffer is valid after every one of a number of calls exactly if no call cuts a text
inside a character. -/
theorem valid_calls_iff (hb : b.Valid) {calls : List Call} (hcalls : b.Along AtBoundary calls) :
    (∀ done, done <+: calls → (done.foldl call b).Valid) ↔ b.Along CutsBetweenChars calls := by
  induction calls generalizing b with
  | nil =>
      refine iff_of_true (fun done hdone => ?_) trivial
      rw [List.prefix_nil.1 hdone]
      exact hb
  | cons call calls ih =>
      obtain ⟨hcall, hcalls⟩ := hcalls
      have hstep := valid_call_iff hb hcall
      constructor
      · intro hall
        have hnext := hall [call] ⟨calls, rfl⟩
        refine ⟨hstep.1 hnext, (ih hnext hcalls).1 fun done hdone => ?_⟩
        exact hall (call :: done) (List.prefix_cons_inj call |>.2 hdone)
      · rintro ⟨hkeeps, hrest⟩ done hdone
        have hnext := hstep.2 hkeeps
        cases done with
        | nil => exact hb
        | cons call' done =>
            obtain ⟨rfl, hprefix⟩ := List.cons_prefix_cons.1 hdone
            exact (ih hnext hcalls).2 hrest done hprefix

/-- The second text is cut behind its first character. -/
theorem valid_calls_two :
    ([Call.pushStr "é", .pushStr "ab"].foldl call (new 4)).Valid ∧
      ([Call.pushStr "é", .pushStr "ab"].foldl call (new 4)).used = 3 := by
  have hboundary : (new 4).Along AtBoundary [.pushStr "é", .pushStr "ab"] := ⟨trivial, trivial, trivial⟩
  have hfirst : (new 4).KeepsChars "é" := by
    unfold KeepsChars
    decide
  have hsecond : ((new 4).call (.pushStr "é")).KeepsChars "ab" := by
    unfold KeepsChars
    decide
  refine ⟨?_, by decide⟩
  exact (valid_calls_iff (valid_new (by decide)) hboundary).2 ⟨hfirst, hsecond, trivial⟩ _ List.prefix_rfl

theorem not_valid_pushStr : (new 2).Valid ∧ ¬ ([Call.pushStr "é"].foldl call (new 2)).Valid := by
  refine ⟨valid_new (by decide), fun hvalid => ?_⟩
  have hkeeps := (valid_pushStr_iff (valid_new (by decide)) "é").1 hvalid
  unfold KeepsChars at hkeeps
  revert hkeeps
  decide

end Utf8CStrBuf

end MagiskNative.Base
