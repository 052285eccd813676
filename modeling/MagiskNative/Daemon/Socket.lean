import MagiskNative.Lib.Bytes
import MagiskNative.Lib.Outcome
import MagiskNative.Lib.Reader
import MagiskNative.Lib.Text

/-!
# Messages between client and daemon

Values are written one after the other, without any frame around them. The reader asks for each part as
it needs it, so that the two sides stay in step only if every value is read back to its last byte.
-/

namespace MagiskNative.Daemon

open Bytes Text Outcome

/-- The types that can be sent. A struct sends its fields in order, as pairs do. -/
inductive Shape where
  | pod (bytes : Nat)
  | bool
  | string
  | vec (elem : Shape)
  | pair (fst snd : Shape)
  deriving DecidableEq, Repr

namespace Shape

def u32 : Shape := .pod 4

def i32 : Shape := .pod 4

def suRequest : Shape :=
  -- target_uid, target_pid, login, keep_env, drop_cap, shell, command, context, gids
  .pair i32 (.pair i32 (.pair .bool (.pair .bool (.pair .bool
    (.pair .string (.pair .string (.pair .string (.vec u32))))))))

abbrev Value : Shape → Type
  | pod bytes => BitVec (8 * bytes)
  | bool => Bool
  | string => String
  | vec elem => List elem.Value
  | pair fst snd => fst.Value × snd.Value

def encodePod {n : Nat} (v : BitVec (8 * n)) : List UInt8 := leBytes n v.toNat

def encodeLen (len : Nat) : List UInt8 := encodePod (n := 4) (BitVec.ofNat 32 len)

def encode : (s : Shape) → s.Value → List UInt8
  | pod _, v => encodePod v
  | bool, b => encodePod (n := 1) (if b then 1 else 0)
  | string, v => encodeLen (utf8Bytes v).length ++ utf8Bytes v
  | vec elem, vs => encodeLen vs.length ++ vs.flatMap fun v => elem.encode v
  | pair fst snd, v => fst.encode v.1 ++ snd.encode v.2

abbrev Decoder (α : Type) : Type := Reader.State → Outcome Reader.Error (α × Reader.State)

def ofRead (result : Except Reader.Error (List UInt8) × Reader.State) :
    Outcome Reader.Error (List UInt8 × Reader.State) :=
  match result with
  | (.ok bytes, r) => .ok (bytes, r)
  | (.error e, _) => .err e

def decodePod (bytes : Nat) : Decoder (BitVec (8 * bytes)) := fun r => do
  let (got, r) ← ofRead (Reader.readExact r bytes)
  return (BitVec.ofNat (8 * bytes) (ofLe got), r)

/-- No vector and no string can have the capacity that a negative length asks for. -/
def decodeLen : Decoder Nat := fun r => do
  let (len, r) ← decodePod 4 r
  if len.toInt < 0 then Outcome.panic else return (len.toInt.toNat, r)

def decodeMany {α : Type} (decode : Decoder α) : Nat → Decoder (List α)
  | 0, r => return ([], r)
  | n + 1, r => do
      let (v, r) ← decode r
      let (vs, r) ← decodeMany decode n r
      return (v :: vs, r)

def decode : (s : Shape) → Decoder s.Value
  | pod bytes, r => decodePod bytes r
  | bool, r => do
      let (b, r) ← decodePod 1 r
      return (b ≠ 0, r)
  | string, r => do
      let (len, r) ← decodeLen r
      let (got, r) ← ofRead (Reader.readTake r len)
      let v ← Outcome.ofOption (ofUtf8? got) .other
      return (v, r)
  | vec elem, r => do
      let (len, r) ← decodeLen r
      decodeMany elem.decode len r
  | pair fst snd, r => do
      let (x, r) ← fst.decode r
      let (y, r) ← snd.decode r
      return ((x, y), r)

/-- All lengths can be sent. -/
def Fits : (s : Shape) → s.Value → Prop
  | pod _, _ => True
  | bool, _ => True
  | string, v => (utf8Bytes v).length < 2 ^ 31
  | vec elem, vs => vs.length < 2 ^ 31 ∧ ∀ v ∈ vs, elem.Fits v
  | pair fst snd, v => fst.Fits v.1 ∧ snd.Fits v.2

/-- Whatever the reader does, the decoder gets `v` from the bytes `sent` and leaves those behind them. -/
def Returns {α : Type} (decode : Decoder α) (sent : List UInt8) (v : α) : Prop :=
  ∀ rest events, Reader.OnlyShort events →
    ∃ events', Reader.OnlyShort events' ∧ decode ⟨sent ++ rest, events⟩ = .ok (v, ⟨rest, events'⟩)

theorem ofRead_readExact (sent rest : List UInt8) {events : List Reader.Event}
    (hevents : Reader.OnlyShort events) :
    ∃ events', Reader.OnlyShort events' ∧
      ofRead (Reader.readExact ⟨sent ++ rest, events⟩ sent.length) = .ok (sent, ⟨rest, events'⟩) := by
  have hlen : sent.length ≤ (sent ++ rest).length := by simp
  obtain ⟨events', hread, hshort⟩ :=
    Reader.readExact_onlyShort (r := ⟨sent ++ rest, events⟩) hevents hlen
  refine ⟨events', hshort, ?_⟩
  rw [hread, ofRead, List.take_left, List.drop_left]

theorem returns_decodePod {n : Nat} (v : BitVec (8 * n)) : Returns (decodePod n) (encodePod v) v := by
  intro rest events hevents
  obtain ⟨events', hshort, hread⟩ := ofRead_readExact (encodePod v) rest hevents
  refine ⟨events', hshort, ?_⟩
  have hlt : v.toNat < 256 ^ n := by
    have := v.isLt
    rwa [Nat.pow_mul] at this
  rw [encodePod, length_leBytes] at hread
  rw [decodePod, encodePod, hread, ok_bind]
  dsimp only
  rw [ofLe_leBytes_of_lt hlt, BitVec.ofNat_toNat, BitVec.setWidth_eq, pure_eq]

theorem returns_decodeLen {len : Nat} (hlen : len < 2 ^ 31) : Returns decodeLen (encodeLen len) len := by
  intro rest events hevents
  obtain ⟨events', hshort, hread⟩ := returns_decodePod (n := 4) (BitVec.ofNat 32 len) rest events hevents
  refine ⟨events', hshort, ?_⟩
  have hint : (BitVec.ofNat 32 len).toInt = len := by
    rw [BitVec.toInt_eq_toNat_of_lt] <;> rw [BitVec.toNat_ofNat] <;> omega
  rw [decodeLen, encodeLen, hread, ok_bind]
  simp only [hint]
  rw [if_neg (by omega)]
  rfl

theorem returns_seq {α β γ : Type} {first : Decoder α} {second : Decoder β} (f : α → β → γ)
    {sent sent' : List UInt8} {x : α} {y : β} (hfirst : Returns first sent x)
    (hsecond : Returns second sent' y) :
    Returns (fun r => do
      let (x, r) ← first r
      let (y, r) ← second r
      return (f x y, r)) (sent ++ sent') (f x y) := by
  intro rest events hevents
  obtain ⟨events', hshort, hread⟩ := hfirst (sent' ++ rest) events hevents
  obtain ⟨events'', hshort', hread'⟩ := hsecond rest events' hshort
  refine ⟨events'', hshort', ?_⟩
  simp only [List.append_assoc, hread, ok_bind, hread', pure_eq]

theorem returns_decodeMany {α : Type} {decode : Decoder α} {encode : α → List UInt8} {vs : List α}
    (hreturns : ∀ v ∈ vs, Returns decode (encode v) v) :
    Returns (decodeMany decode vs.length) (vs.flatMap encode) vs := by
  induction vs with
  | nil => exact fun rest events hevents => ⟨events, hevents, rfl⟩
  | cons v vs ih =>
      exact returns_seq List.cons (hreturns v List.mem_cons_self)
        (ih fun w hw => hreturns w (List.mem_cons_of_mem v hw))

theorem returns_decode (s : Shape) (v : s.Value) (hv : s.Fits v) : Returns s.decode (s.encode v) v := by
  induction s with
  | pod bytes => exact returns_decodePod v
  | bool =>
      intro rest events hevents
      obtain ⟨events', hshort, hread⟩ :=
        returns_decodePod (n := 1) (if v then 1 else 0) rest events hevents
      refine ⟨events', hshort, ?_⟩
      rw [decode, encode, hread, ok_bind]
      cases v <;> rfl
  | string =>
      intro rest events hevents
      obtain ⟨events', hshort, hread⟩ := returns_decodeLen hv (utf8Bytes v ++ rest) events hevents
      obtain ⟨events'', hshort', hread'⟩ := ofRead_readExact (utf8Bytes v) rest hshort
      refine ⟨events'', hshort', ?_⟩
      rw [← Reader.readTake_eq_readExact (by simp)] at hread'
      simp only [decode, encode, List.append_assoc, hread, ok_bind, hread', ofUtf8?_utf8Bytes,
        ofOption_some, pure_eq]
  | vec elem ih =>
      have hmany : Returns (decodeMany elem.decode v.length) (v.flatMap fun x => elem.encode x) v :=
        returns_decodeMany fun x hx => ih x (hv.2 x hx)
      intro rest events hevents
      obtain ⟨events', hshort, hread⟩ :=
        returns_decodeLen hv.1 (v.flatMap (fun x => elem.encode x) ++ rest) events hevents
      obtain ⟨events'', hshort', hread'⟩ := hmany rest events' hshort
      refine ⟨events'', hshort', ?_⟩
      simp only [decode, encode, List.append_assoc, hread, ok_bind, hread']
  | pair fst snd ihfst ihsnd =>
      exact returns_seq Prod.mk (ihfst v.1 hv.1) (ihsnd v.2 hv.2)

end Shape

abbrev Message : Type := (s : Shape) × s.Value

def encodeAll (messages : List Message) : List UInt8 := messages.flatMap fun m => m.1.encode m.2

def decodeAll : List Shape → Shape.Decoder (List Message)
  | [], r => return ([], r)
  | s :: shapes, r => do
      let (v, r) ← s.decode r
      let (messages, r) ← decodeAll shapes r
      return (⟨s, v⟩ :: messages, r)

/-- **Messages are read back in step.** However the reader splits them, each message is read as it was sent,
and what follows the last one is left unread. -/
theorem decodeAll_encodeAll (messages : List Message) (hfits : ∀ m ∈ messages, m.1.Fits m.2)
    (rest : List UInt8) (events : List Reader.Event) (hevents : Reader.OnlyShort events) :
    ∃ events', Reader.OnlyShort events' ∧
      decodeAll (messages.map Sigma.fst) ⟨encodeAll messages ++ rest, events⟩
        = .ok (messages, ⟨rest, events'⟩) := by
  suffices hreturns : Shape.Returns (decodeAll (messages.map Sigma.fst)) (encodeAll messages) messages from
    hreturns rest events hevents
  induction messages with
  | nil => exact fun rest events hevents => ⟨events, hevents, rfl⟩
  | cons m messages ih =>
      exact Shape.returns_seq (fun v messages => Sigma.mk m.1 v :: messages)
        (Shape.returns_decode m.1 m.2 (hfits m List.mem_cons_self))
        (ih fun m' hm' => hfits m' (List.mem_cons_of_mem m hm'))

def suMessages : List Message :=
  [⟨.suRequest, (0#32, -1#32, false, true, false, "/system/bin/sh", "id", "", [1000#32, 2000#32])⟩,
    ⟨.i32, 0#32⟩]

theorem decodeAll_suMessages :
    (∀ m ∈ suMessages, m.1.Fits m.2) ∧ Reader.OnlyShort [.short 2, .short 0] ∧
      ∃ events', Reader.OnlyShort events' ∧
        decodeAll [.suRequest, .i32] ⟨encodeAll suMessages ++ [7], [.short 2, .short 0]⟩
          = .ok (suMessages, ⟨[7], events'⟩) := by
  have hfits : ∀ m ∈ suMessages, m.1.Fits m.2 := by
    simp only [suMessages, Shape.suRequest, Shape.i32, Shape.u32, List.forall_mem_cons, Shape.Fits]
    exact ⟨⟨trivial, trivial, trivial, trivial, trivial, by decide, by decide, by decide, by simp⟩,
      trivial, by simp⟩
  have hevents : Reader.OnlyShort [.short 2, .short 0] := by simp [Reader.OnlyShort]
  exact ⟨hfits, hevents, decodeAll_encodeAll suMessages hfits [7] _ hevents⟩

end MagiskNative.Daemon
