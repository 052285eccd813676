import MagiskNative.Compress.RoundTrip

/-!
# Readers that fail

`LZ4BlockDecoder::read` on top of a reader whose calls can fail or be interrupted. `fetch` is the
refill of the input buffer with every error passed on. The decoder does that except for one call: if
the first read of a block fails, it decompresses what the buffer holds from before.
-/

namespace Reader

theorem readExact_nil_events (data : List UInt8) (len : Nat) :
    readExact ⟨data, []⟩ len
      = if len ≤ data.length then (.ok (data.take len), ⟨data.drop len, []⟩)
        else (.error .unexpectedEof, ⟨[], []⟩) := by
  by_cases hlen : len = 0
  · subst hlen
    rw [readExact, if_pos rfl, if_pos (Nat.zero_le _), List.take_zero, List.drop_zero]
  · have hread : read ⟨data, []⟩ len = (.ok (data.take len), ⟨data.drop len, []⟩) := rfl
    by_cases hdata : data = []
    · subst hdata
      rw [List.take_nil, List.drop_nil] at hread
      rw [readExact_of_read_nil hlen hread, if_neg (by rw [List.length_nil]; omega)]
    · have hne := take_ne_nil (Nat.pos_of_ne_zero hlen) hdata
      rw [readExact_of_read_ok hne hlen hread, List.length_take]
      by_cases hle : len ≤ data.length
      · rw [Nat.min_eq_left hle, Nat.sub_self, readExact, if_pos rfl, if_pos hle, prepend, List.append_nil]
      · have hend : read ⟨data.drop len, []⟩ (len - min len data.length) = (.ok [], ⟨[], []⟩) := by
          rw [List.drop_of_length_le (by omega), read, List.take_nil, List.drop_nil]
        rw [readExact_of_read_nil (by omega) hend, if_neg hle, prepend]

theorem readExact_eq_of_ok {r r' : State} {len : Nat} {got : List UInt8}
    (hread : readExact r len = (.ok got, r')) :
    readExact ⟨r.data, []⟩ len = (.ok got, ⟨r'.data, []⟩) := by
  obtain ⟨hdata, hlength⟩ := data_readExact hread
  rw [readExact_nil_events, hdata, if_pos (by rw [List.length_append]; omega), List.take_left' hlength,
    List.drop_left' hlength]

theorem read_ne_eof (r : State) (len : Nat) : (read r len).1 ≠ .error .unexpectedEof := by
  obtain ⟨data, events⟩ := r
  rcases events with - | ⟨n | - | -, events⟩ <;> nofun

theorem data_readExact_eof {r r' : State} {len : Nat}
    (hread : readExact r len = (.error .unexpectedEof, r')) : r.data.length < len ∧ r'.data = [] := by
  fun_induction readExact r len with
  | case1 r => cases hread
  | case2 r len hlen r₁ hnil =>
      cases hread
      have hdata := data_eq_nil_of_read hlen hnil
      have hrest := (data_read hnil).1
      rw [hdata] at hrest
      rw [hdata, List.length_nil]
      exact ⟨Nat.pos_of_ne_zero hlen, (List.append_eq_nil_iff.1 hrest.symm).2⟩
  | case3 r len hlen b first r₁ hfirst ih =>
      obtain ⟨hlt, hnil⟩ := ih (prepend_eq_error hread)
      have hdata := congrArg List.length (data_read hfirst).1
      rw [List.length_append] at hdata
      exact ⟨by omega, hnil⟩
  | case4 r len hlen r₁ hfirst ih =>
      rw [← data_read_interrupted hfirst]
      exact ih hread
  | case5 r len hlen e r₁ hinterrupted hfirst =>
      cases hread
      exact absurd (congrArg Prod.fst hfirst) (read_ne_eof r len)

theorem readExact_eq_of_eof {r r' : State} {len : Nat}
    (hread : readExact r len = (.error .unexpectedEof, r')) :
    readExact ⟨r.data, []⟩ len = (.error .unexpectedEof, ⟨r'.data, []⟩) := by
  obtain ⟨hlt, hnil⟩ := data_readExact_eof hread
  rw [readExact_nil_events, if_neg (by omega), hnil]

end Reader

namespace MagiskNative.Compress

namespace Decoder

def fetchSize (r : Reader.State) : Except Reader.Error (Option Nat) × Reader.State :=
  match Reader.readExact r 4 with
  | (.error .unexpectedEof, r) => (.ok none, r)
  | (.error e, r) => (.error e, r)
  | (.ok size, r) =>
      if Bytes.ofLe size = lz4Magic then
        match Reader.readExact r 4 with
        | (.error e, r) => (.error e, r)
        | (.ok size, r) => (.ok (some (Bytes.ofLe size)), r)
      else (.ok (some (Bytes.ofLe size)), r)

def fetchBlock (limit : Nat) (r : Reader.State) (size : Nat) :
    Except Reader.Error (Option (List UInt8)) × Reader.State :=
  if limit < size then (.ok none, r)
  else
    match Reader.read r size with
    | (.error e, r) => (.error e, r)
    | (.ok [], r) => (.ok none, r)
    | (.ok got, r) =>
        if got.length ≠ size then
          match Reader.readExact r (size - got.length) with
          | (.error e, r) => (.error e, r)
          | (.ok rest, r) => (.ok (some (got ++ rest)), r)
        else (.ok (some got), r)

def fetch (limit : Nat) (r : Reader.State) : Except Reader.Error (Option (List UInt8)) × Reader.State :=
  match fetchSize r with
  | (.error e, r) => (.error e, r)
  | (.ok none, r) => (.ok none, r)
  | (.ok (some size), r) => fetchBlock limit r size

/-- The stream that blocks of at most `limit` bytes decode to, up to the first error. -/
def decoded (codec : Codec) (limit : Nat) (data : List UInt8) : List UInt8 :=
  match fetch limit ⟨data, []⟩ with
  | (.error _, _) => []
  | (.ok none, r) => if r.data.length < data.length then decoded codec limit r.data else []
  | (.ok (some b), r) =>
      match codec.decompress b with
      | none => []
      | some chunk => if r.data.length < data.length then chunk ++ decoded codec limit r.data else chunk
termination_by data.length

section Fetch

variable {codec : Codec} {limit : Nat} {r r' : Reader.State}

theorem fetchSize_eq_of_ok {size : Option Nat} (hfetch : fetchSize r = (.ok size, r')) :
    fetchSize ⟨r.data, []⟩ = (.ok size, ⟨r'.data, []⟩) ∧
      if size.isSome then r'.data.length < r.data.length else r'.data = [] := by
  rw [fetchSize] at hfetch ⊢
  rcases hword : Reader.readExact r 4 with ⟨result, r₁⟩
  rw [hword] at hfetch
  rcases result with (- | - | -) | word
  · cases hfetch
    rw [Reader.readExact_eq_of_eof hword]
    exact ⟨rfl, (Reader.data_readExact_eof hword).2⟩
  · cases hfetch
  · cases hfetch
  · obtain ⟨hdata, hlength⟩ := Reader.data_readExact hword
    have hdata := congrArg List.length hdata
    rw [List.length_append] at hdata
    rw [Reader.readExact_eq_of_ok hword]
    simp only at hfetch ⊢
    split at hfetch
    · rename_i hmagic
      rw [if_pos hmagic]
      rcases hword' : Reader.readExact r₁ 4 with ⟨result', r₂⟩
      rw [hword'] at hfetch
      cases result' with
      | error e => cases hfetch
      | ok word' =>
          cases hfetch
          have hdata' := congrArg List.length (Reader.data_readExact hword').1
          rw [List.length_append] at hdata'
          rw [Reader.readExact_eq_of_ok hword']
          simp only [Option.isSome_some, if_true, true_and]
          omega
    · rename_i hmagic
      cases hfetch
      simp only [if_neg hmagic, Option.isSome_some, if_true, true_and]
      omega

variable {b : Option (List UInt8)}

theorem data_fetchBlock {size : Nat} (hfetch : fetchBlock limit r size = (.ok b, r')) :
    match b with
    | none => (limit < size ∨ size = 0 ∨ r.data = []) ∧ r'.data = r.data
    | some block => size ≤ limit ∧ block ≠ [] ∧ block.length = size ∧ r.data = block ++ r'.data := by
  rw [fetchBlock] at hfetch
  by_cases hlimit : limit < size
  · rw [if_pos hlimit] at hfetch
    cases hfetch
    exact ⟨.inl hlimit, rfl⟩
  · rw [if_neg hlimit] at hfetch
    rcases hread : Reader.read r size with ⟨result, r₁⟩
    rw [hread] at hfetch
    rcases result with e | - | ⟨c, got⟩
    · cases hfetch
    · cases hfetch
      refine ⟨.inr ?_, (Reader.data_read hread).1.symm⟩
      by_cases hsize : size = 0
      · exact .inl hsize
      · exact .inr (Reader.data_eq_nil_of_read hsize hread)
    · obtain ⟨hdata, hle⟩ := Reader.data_read hread
      simp only at hfetch
      split at hfetch
      · rcases hrest : Reader.readExact r₁ (size - (c :: got).length) with ⟨result', r₂⟩
        rw [hrest] at hfetch
        cases result' with
        | error e => cases hfetch
        | ok rest =>
            cases hfetch
            obtain ⟨hdata', hlength⟩ := Reader.data_readExact hrest
            refine ⟨by omega, by simp, ?_, ?_⟩
            · rw [List.length_append, hlength]
              omega
            · rw [hdata, hdata', List.append_assoc]
      · rename_i hfull
        cases hfetch
        exact ⟨by omega, by simp, not_not.1 hfull, hdata⟩

theorem fetchBlock_eq_of_ok {size : Nat} (hfetch : fetchBlock limit r size = (.ok b, r')) :
    fetchBlock limit ⟨r.data, []⟩ size = (.ok b, ⟨r'.data, []⟩) := by
  have hspec := data_fetchBlock hfetch
  have hread : ∀ data, Reader.read ⟨data, []⟩ size = (.ok (data.take size), ⟨data.drop size, []⟩) :=
    fun _ => rfl
  rw [fetchBlock]
  cases b with
  | none =>
      obtain ⟨hend, hdata⟩ := hspec
      rw [hdata]
      by_cases hlimit : limit < size
      · rw [if_pos hlimit]
      · have hnil : r.data.take size = [] ∧ r.data.drop size = r.data := by
          rcases hend.resolve_left hlimit with hsize | hnil
          · rw [hsize]
            exact ⟨rfl, rfl⟩
          · rw [hnil]
            exact ⟨List.take_nil, List.drop_nil⟩
        rw [if_neg hlimit, hread, hnil.1, hnil.2]
  | some block =>
      obtain ⟨hle, hne, hlength, hdata⟩ := hspec
      rw [if_neg (by omega), hread, hdata, List.take_left' hlength, List.drop_left' hlength]
      obtain ⟨c, block, rfl⟩ := List.exists_cons_of_ne_nil hne
      simp only [hlength, ne_eq, not_true_eq_false, if_false]

theorem fetch_eq_of_ok (hfetch : fetch limit r = (.ok b, r')) :
    fetch limit ⟨r.data, []⟩ = (.ok b, ⟨r'.data, []⟩) := by
  rw [fetch] at hfetch ⊢
  rcases hsize : fetchSize r with ⟨result, r₁⟩
  rw [hsize] at hfetch
  rcases result with e | - | size
  · cases hfetch
  · cases hfetch
    rw [(fetchSize_eq_of_ok hsize).1]
  · rw [(fetchSize_eq_of_ok hsize).1]
    exact fetchBlock_eq_of_ok hfetch

theorem length_data_fetch (hfetch : fetch limit r = (.ok b, r')) :
    r'.data.length < r.data.length ∨ b = none ∧ r'.data = [] := by
  rw [fetch] at hfetch
  rcases hsize : fetchSize r with ⟨result, r₁⟩
  rw [hsize] at hfetch
  rcases result with e | - | size
  · cases hfetch
  · cases hfetch
    exact .inr ⟨rfl, (fetchSize_eq_of_ok hsize).2⟩
  · have hlt : r₁.data.length < r.data.length := (fetchSize_eq_of_ok hsize).2
    have hblock := data_fetchBlock hfetch
    left
    cases b with
    | none =>
        rw [hblock.2]
        exact hlt
    | some block =>
        obtain ⟨-, -, -, hrest⟩ := hblock
        rw [hrest, List.length_append] at hlt
        omega

theorem decoded_nil (codec : Codec) (limit : Nat) : decoded codec limit [] = [] := by
  have hfetch : fetch limit ⟨[], []⟩ = (.ok none, ⟨[], []⟩) := by
    rw [fetch, fetchSize, Reader.readExact_nil_events]
    rfl
  rw [decoded, hfetch]
  rfl

theorem decoded_of_fetch_none (hfetch : fetch limit r = (.ok none, r')) :
    decoded codec limit r.data = decoded codec limit r'.data := by
  rw [decoded, fetch_eq_of_ok hfetch]
  simp only
  split
  · rfl
  · rename_i hlt
    rcases length_data_fetch hfetch with h | ⟨-, hnil⟩
    · exact absurd h hlt
    · rw [hnil, decoded_nil]

theorem decoded_of_fetch_some {block chunk : List UInt8} (hfetch : fetch limit r = (.ok (some block), r'))
    (hdecode : codec.decompress block = some chunk) :
    decoded codec limit r.data = chunk ++ decoded codec limit r'.data := by
  rw [decoded, fetch_eq_of_ok hfetch]
  simp only [hdecode]
  apply if_pos
  rcases length_data_fetch hfetch with hlt | ⟨hnone, -⟩
  · exact hlt
  · cases hnone

end Fetch

/-- The first read of a block's bytes fails. -/
def Stale (d : Decoder) : Prop :=
  d.pending = [] ∧ ∃ size r e, fetchSize d.reader = (.ok (some size), r) ∧ size ≤ d.inBuf.length ∧
    (Reader.read r size).1 = .error e

/-- A refill up to the call of the decompressor, with the block it is called on. -/
def gather (d : Decoder) : Except Reader.Error (Option (List UInt8)) × Decoder :=
  match fetchSize d.reader with
  | (.error e, r) => (.error e, { d with reader := r })
  | (.ok none, r) => (.ok none, { d with reader := r })
  | (.ok (some size), r) =>
      if d.inBuf.length < size then (.ok none, { d with reader := r })
      else
        match Reader.read r size with
        | (.error _, r) => (.ok (some (d.inBuf.take size)), { d with reader := r })
        | (.ok [], r) => (.ok none, { d with reader := r })
        | (.ok got, r) =>
            if got.length ≠ size then
              match Reader.readExact r (size - got.length) with
              | (.error e, r) => (.error e, { d with reader := r, inBuf := got ++ d.inBuf.drop got.length })
              | (.ok rest, r) =>
                  (.ok (some (got ++ rest)), { d with reader := r, inBuf := got ++ rest ++ d.inBuf.drop size })
            else (.ok (some got), { d with reader := r, inBuf := got ++ d.inBuf.drop got.length })

section Fill

variable {codec : Codec} {d : Decoder}

theorem fill_eq (codec : Codec) (d : Decoder) :
    fill codec d
      = match fetchSize d.reader with
        | (.error e, r) => (.error e, { d with reader := r })
        | (.ok none, r) => (.ok false, { d with reader := r })
        | (.ok (some size), r) => readBlock codec { d with reader := r } size := by
  rw [fill, fetchSize]
  cases Reader.readExact d.reader 4 with
  | mk result r =>
      rcases result with (- | - | -) | word
      · rfl
      · rfl
      · rfl
      · simp only
        split
        · cases Reader.readExact r 4 with
          | mk result' r' =>
              cases result' with
              | error e => rfl
              | ok word' => rfl
        · rfl

theorem fill_eq_gather (codec : Codec) (d : Decoder) :
    fill codec d
      = match gather d with
        | (.error e, d') => (.error e, d')
        | (.ok none, d') => (.ok false, d')
        | (.ok (some block), d') =>
            match codec.decompress block with
            | none => (.error .other, d')
            | some chunk => (.ok true, { d' with pending := chunk }) := by
  rw [fill_eq, gather]
  rcases fetchSize d.reader with ⟨result, r⟩
  rcases result with e | - | size
  · rfl
  · rfl
  · simp only [readBlock]
    by_cases hlimit : d.inBuf.length < size
    · rw [if_pos hlimit, if_pos hlimit]
    · rw [if_neg hlimit, if_neg hlimit]
      rcases hread : Reader.read r size with ⟨result, r₁⟩
      rcases result with e | - | ⟨c, got⟩
      · rfl
      · rfl
      · by_cases hshort : (c :: got).length ≠ size
        · simp only [if_pos hshort]
          rcases hrest : Reader.readExact r₁ (size - (c :: got).length) with ⟨result, r₂⟩
          cases result with
          | error e => rfl
          | ok rest =>
              have hlength : (c :: got ++ rest).length = size := by
                rw [List.length_append, (Reader.data_readExact hrest).2]
                exact Nat.add_sub_cancel' (Reader.data_read hread).2
              cases hdec : codec.decompress (c :: got ++ rest) <;>
                simp only [decodeBlock, List.take_left' hlength, hdec]
        · cases hdec : codec.decompress (c :: got) <;>
            simp only [if_neg hshort, decodeBlock, List.take_left' (not_not.1 hshort), hdec]

theorem gather_of_stale (hstale : Stale d) :
    (∃ block d', gather d = (.ok (some block), d')) ∧ ∃ e r, fetch d.inBuf.length d.reader = (.error e, r) := by
  obtain ⟨-, size, r, e, hsize, hle, hread⟩ := hstale
  rcases hfirst : Reader.read r size with ⟨result, r₁⟩
  rw [hfirst] at hread
  cases hread
  have hroom : ¬ d.inBuf.length < size := by omega
  constructor
  · rw [gather, hsize]
    simp only [if_neg hroom, hfirst]
    exact ⟨_, _, rfl⟩
  · rw [fetch, hsize]
    simp only [fetchBlock, if_neg hroom, hfirst]
    exact ⟨_, _, rfl⟩

theorem gather_of_not_stale (hpending : d.pending = []) (hstale : ¬ Stale d) :
    match fetch d.inBuf.length d.reader with
    | (.error e, _) => ∃ d', gather d = (.error e, d')
    | (.ok block, r) => ∃ inBuf : List UInt8, inBuf.length = d.inBuf.length ∧
        gather d = (.ok block, { d with reader := r, inBuf := inBuf }) := by
  rw [fetch, gather]
  rcases hsize : fetchSize d.reader with ⟨result, r⟩
  rcases result with e | - | size
  · exact ⟨_, rfl⟩
  · exact ⟨_, rfl, rfl⟩
  · simp only [fetchBlock]
    by_cases hlimit : d.inBuf.length < size
    · rw [if_pos hlimit, if_pos hlimit]
      exact ⟨_, rfl, rfl⟩
    · rw [if_neg hlimit, if_neg hlimit]
      rcases hread : Reader.read r size with ⟨result, r₁⟩
      rcases result with e | - | ⟨c, got⟩
      · exact absurd ⟨hpending, size, r, e, hsize, by omega, by rw [hread]⟩ hstale
      · exact ⟨_, rfl, rfl⟩
      · have hle : (c :: got).length ≤ size := (Reader.data_read hread).2
        by_cases hshort : (c :: got).length ≠ size
        · simp only [if_pos hshort]
          rcases hrest : Reader.readExact r₁ (size - (c :: got).length) with ⟨result, r₂⟩
          cases result with
          | error e => exact ⟨_, rfl⟩
          | ok rest =>
              refine ⟨_, ?_, rfl⟩
              rw [List.length_append, List.length_append, (Reader.data_readExact hrest).2, List.length_drop]
              omega
        · simp only [if_neg hshort]
          refine ⟨_, ?_, rfl⟩
          rw [List.length_append, List.length_drop]
          omega

end Fill

def calls (codec : Codec) (d : Decoder) : List Nat → List (Decoder × Nat)
  | [] => []
  | len :: lens =>
      (d, len) ::
        match read codec d len with
        | (.error _, _) => []
        | (.ok _, d') => calls codec d' lens

def outputs (codec : Codec) (d : Decoder) : List Nat → List (List UInt8)
  | [] => []
  | len :: lens =>
      match read codec d len with
      | (.error _, _) => []
      | (.ok out, d') => out :: outputs codec d' lens

def remaining (codec : Codec) (d : Decoder) : List UInt8 :=
  d.pending ++ decoded codec d.inBuf.length d.reader.data

/-- If a block cannot be fetched the call fails, what is decompressed is the block that the same call fetched,
and what is handed out continues the stream. -/
structure Faithful (codec : Codec) (d : Decoder) (lens : List Nat) : Prop where
  errors : ∀ call ∈ calls codec d lens, call.1.pending = [] →
    ∀ e r, fetch call.1.inBuf.length call.1.reader = (.error e, r) →
      ∃ e' d', read codec call.1 call.2 = (.error e', d')
  fetched : ∀ call ∈ calls codec d lens, call.1.pending = [] →
    ∀ block d', gather call.1 = (.ok (some block), d') →
      ∃ r, fetch call.1.inBuf.length call.1.reader = (.ok (some block), r)
  continues : (outputs codec d lens).flatten <+: remaining codec d

section Run

variable {codec : Codec} {d d' : Decoder} {len : Nat} {out : List UInt8}

theorem read_of_error {e : Reader.Error} {r : Reader.State} (hstale : ¬ Stale d)
    (hpending : d.pending = []) (hfetch : fetch d.inBuf.length d.reader = (.error e, r)) (len : Nat) :
    ∃ e' d', read codec d len = (.error e', d') := by
  have hgather := gather_of_not_stale hpending hstale
  rw [hfetch] at hgather
  obtain ⟨d', hgather⟩ := hgather
  rw [read, if_pos hpending, fill_eq_gather, hgather]
  exact ⟨_, _, rfl⟩

theorem fetch_of_gather {block : List UInt8} (hstale : ¬ Stale d) (hpending : d.pending = [])
    (hgather : gather d = (.ok (some block), d')) :
    ∃ r, fetch d.inBuf.length d.reader = (.ok (some block), r) := by
  have hspec := gather_of_not_stale hpending hstale
  rcases hfetch : fetch d.inBuf.length d.reader with ⟨result, r⟩
  rw [hfetch, hgather] at hspec
  cases result with
  | error e =>
      obtain ⟨d₁, hspec⟩ := hspec
      cases hspec
  | ok b =>
      obtain ⟨inBuf, -, hspec⟩ := hspec
      cases hspec
      exact ⟨r, rfl⟩

theorem remaining_of_read (hstale : ¬ Stale d) (hread : read codec d len = (.ok out, d')) :
    remaining codec d = out ++ remaining codec d' := by
  by_cases hpending : d.pending = []
  · have hgather := gather_of_not_stale hpending hstale
    rcases hfetch : fetch d.inBuf.length d.reader with ⟨result, r⟩
    rw [hfetch] at hgather
    rw [read, if_pos hpending, fill_eq_gather] at hread
    rcases result with e | - | block
    · obtain ⟨d₁, hgather⟩ := hgather
      rw [hgather] at hread
      cases hread
    · obtain ⟨inBuf, hlength, hgather⟩ := hgather
      rw [hgather] at hread
      cases hread
      rw [remaining, remaining, decoded_of_fetch_none hfetch, List.nil_append, hlength]
    · obtain ⟨inBuf, hlength, hgather⟩ := hgather
      rw [hgather] at hread
      cases hdecode : codec.decompress block with
      | none =>
          simp only [hdecode] at hread
          cases hread
      | some chunk =>
          simp only [hdecode] at hread
          cases hread
          rw [remaining, remaining, hpending, decoded_of_fetch_some hfetch hdecode, List.nil_append]
          simp only [hlength]
          rw [← List.append_assoc, List.take_append_drop]
  · rw [read, if_neg hpending] at hread
    cases hread
    rw [remaining, remaining, ← List.append_assoc, List.take_append_drop]

theorem faithful_of_not_stale {lens : List Nat}
    (hstale : ∀ call ∈ calls codec d lens, ¬ Stale call.1) : Faithful codec d lens := by
  refine ⟨fun call hcall hpending e r hfetch => read_of_error (hstale call hcall) hpending hfetch _,
    fun call hcall hpending block d' hgather => fetch_of_gather (hstale call hcall) hpending hgather, ?_⟩
  induction lens generalizing d with
  | nil => exact List.nil_prefix
  | cons len lens ih =>
      rw [calls, List.forall_mem_cons] at hstale
      rw [outputs]
      rcases hread : read codec d len with ⟨result, d'⟩
      rw [hread] at hstale
      cases result with
      | error e => exact List.nil_prefix
      | ok out =>
          rw [remaining_of_read hstale.1 hread]
          simp only [List.flatten_cons]
          rw [List.prefix_append_right_inj]
          exact ih hstale.2

end Run

end Decoder

/-- **Stale blocks.** Whatever the reader does, the decoder is faithful if and only if no first read of a
block's bytes fails. -/
theorem faithful_iff (codec : Codec) (data : List UInt8) (events : List Reader.Event)
    (inBuf : List UInt8) (lens : List Nat) :
    Decoder.Faithful codec (Decoder.new data events inBuf) lens ↔
      ∀ call ∈ Decoder.calls codec (Decoder.new data events inBuf) lens, ¬ Decoder.Stale call.1 := by
  refine ⟨fun hfaithful call hcall hstale => ?_, Decoder.faithful_of_not_stale⟩
  obtain ⟨⟨block, d', hgather⟩, e, r, herror⟩ := Decoder.gather_of_stale hstale
  obtain ⟨r', hfetch⟩ := hfaithful.fetched call hcall hstale.1 block d' hgather
  rw [herror] at hfetch
  cases hfetch

namespace Decoder

theorem readExact_four (w x y z : UInt8) (rest : List UInt8) (events : List Reader.Event) :
    Reader.readExact ⟨w :: x :: y :: z :: rest, .short 3 :: events⟩ 4 = (.ok [w, x, y, z], ⟨rest, events⟩) := by
  have hread : Reader.read ⟨w :: x :: y :: z :: rest, .short 3 :: events⟩ 4
      = (.ok [w, x, y, z], ⟨rest, events⟩) := rfl
  have hdone : Reader.readExact ⟨rest, events⟩ 0 = (.ok [], ⟨rest, events⟩) := by
    rw [Reader.readExact, if_pos rfl]
  rw [Reader.readExact_of_read_ok (List.cons_ne_nil _ _) (by decide) hread, List.length_cons, List.length_cons,
    List.length_cons, List.length_cons, List.length_nil, hdone]
  rfl

/-- Two blocks of one literal each. -/
def twoBlocks : List UInt8 := [0x02, 0x21, 0x4c, 0x18, 2, 0, 0, 0, 0x10, 7, 2, 0, 0, 0, 0x10, 9]

def interruptedAt : List Reader.Event := [.short 3, .short 3, .short 1, .short 3, .interrupted]

theorem reads_interrupted {inBuf : List UInt8} (hinBuf : 2 ≤ inBuf.length) :
    ∃ d₁ d₂, read literalCodec (new twoBlocks interruptedAt inBuf) 1 = (.ok [7], d₁) ∧
      read literalCodec d₁ 1 = (.ok [7], d₂) ∧ Stale d₁ := by
  have hroom : ¬ inBuf.length < 2 := by omega
  have hroom' : ¬ (0x10 :: 7 :: inBuf.drop 2).length < 2 := by simp
  have hfirst : fetchSize ⟨twoBlocks, interruptedAt⟩
      = (.ok (some 2), ⟨[0x10, 7, 2, 0, 0, 0, 0x10, 9], [.short 1, .short 3, .interrupted]⟩) := by
    rw [fetchSize, twoBlocks, interruptedAt, readExact_four]
    simp only [show Bytes.ofLe [0x02, 0x21, 0x4c, 0x18] = lz4Magic by decide, if_true]
    rw [readExact_four]
    rfl
  have hsecond : fetchSize ⟨[2, 0, 0, 0, 0x10, 9], [.short 3, .interrupted]⟩
      = (.ok (some 2), ⟨[0x10, 9], [.interrupted]⟩) := by
    rw [fetchSize, readExact_four]
    rfl
  refine ⟨⟨⟨[2, 0, 0, 0, 0x10, 9], [.short 3, .interrupted]⟩, 0x10 :: 7 :: inBuf.drop 2, []⟩,
    ⟨⟨[0x10, 9], []⟩, 0x10 :: 7 :: inBuf.drop 2, []⟩, ?_, ?_, rfl, 2, ⟨[0x10, 9], [.interrupted]⟩,
    .interrupted, hsecond, by simp, rfl⟩
  · rw [new, read, if_pos rfl, fill_eq, hfirst]
    simp only [readBlock, if_neg hroom]
    rfl
  · rw [read, if_pos rfl, fill_eq, hsecond]
    simp only [readBlock, if_neg hroom']
    rfl

theorem not_faithful_of_interrupted {inBuf : List UInt8} (hinBuf : 2 ≤ inBuf.length) :
    let d := new twoBlocks interruptedAt inBuf
    outputs literalCodec d [1, 1] = [[7], [7]] ∧ ¬ Faithful literalCodec d [1, 1] := by
  intro d
  obtain ⟨d₁, d₂, hfirst, hsecond, hstale⟩ := reads_interrupted hinBuf
  constructor
  · simp only [d, outputs, hfirst, hsecond]
  · intro hfaithful
    have hcall : (d₁, 1) ∈ calls literalCodec d [1, 1] := by
      simp only [d, calls, hfirst]
      exact List.mem_cons_of_mem _ List.mem_cons_self
    obtain ⟨-, e, r, hfetch⟩ := gather_of_stale hstale
    obtain ⟨e', d', herror⟩ := hfaithful.errors (d₁, 1) hcall hstale.1 e r hfetch
    rw [hsecond] at herror
    cases herror

end Decoder

theorem not_faithful_interrupted :
    let d := Decoder.new Decoder.twoBlocks Decoder.interruptedAt
      (List.replicate (compressBound lz4BlockSize) 0)
    Decoder.outputs literalCodec d [1, 1] = [[7], [7]] ∧ ¬ Decoder.Faithful literalCodec d [1, 1] := by
  have hroom : 2 ≤ (List.replicate (compressBound lz4BlockSize) (0 : UInt8)).length := by
    rw [List.length_replicate, compressBound]
    exact Nat.le_add_left_of_le (by decide)
  exact Decoder.not_faithful_of_interrupted hroom

end MagiskNative.Compress
