import Ratect.Framing
import Ratect.ColonFile
import Ratect.Strings

/-! # The ssh-agent

`serve_connection` and the answers of the agent (`ssh_agent.rs`), over a signing primitive that is
any function of the key, the data and the flags.  A client's stream is its bytes up to the end;
writing to the client does not fail.

A stream is some frames of accepted lengths and a rest that begins with none (`exists_framed`), and
each frame gets its answer in its turn (`serveConnection_framed`).  `Reader` takes what
`write_string` has written off the front of what is left (`Reader.string_append`), and only that
(`Reader.string_eq_some`), so a request is one of two kinds with its parts or gets the failure
byte. -/

namespace Ratect.SshAgent

open ColonFile (Bytes utf8)
open Framing (beBytes ofBeBytes)

def sshAgentFailure : UInt8 := 5
def sshAgentcRequestIdentities : UInt8 := 11
def sshAgentIdentitiesAnswer : UInt8 := 12
def sshAgentcSignRequest : UInt8 := 13
def sshAgentSignResponse : UInt8 := 14

/-- `MAX_MESSAGE_LENGTH`. -/
def maxMessageLength : ℕ := 256 * 1024

/-! ### Reading and writing -/

/-- `Reader`: never past the end of its bytes. -/
structure Reader where
  bytes : Bytes
  offset : ℕ
  inside : offset ≤ bytes.length

def Reader.new (bytes : Bytes) : Reader := ⟨bytes, 0, Nat.zero_le _⟩

/-- `take`: a slice of just that many bytes, unless they are more than there are. -/
def Reader.take (count : ℕ) (reader : Reader) :
    Option ({slice : Bytes // slice.length = count} × Reader) :=
  if h : reader.offset + count ≤ reader.bytes.length then
    some (⟨(reader.bytes.drop reader.offset).take count, by
      rw [List.length_take, List.length_drop]; omega⟩,
      ⟨reader.bytes, reader.offset + count, h⟩)
  else none

/-- `u8`: the slice has the byte that is indexed. -/
def Reader.u8 (reader : Reader) : Option (UInt8 × Reader) :=
  (reader.take 1).map fun (slice, reader) => (slice.1.get ⟨0, by rw [slice.2]; decide⟩, reader)

def Reader.u32 (reader : Reader) : Option (ℕ × Reader) :=
  (reader.take 4).map fun (slice, reader) => (ofBeBytes slice.1, reader)

def Reader.string (reader : Reader) : Option (Bytes × Reader) :=
  reader.u32.bind fun (length, reader) =>
    (reader.take length).map fun (slice, reader) => (slice.1, reader)

/-- What `write_string` appends; a length is cut to its low 32 bits. -/
def writeString (bytes : Bytes) : Bytes := beBytes 4 bytes.length ++ bytes

/-! ### Answers -/

/-- `LoadedKey`, over the private keys of the signing primitive. -/
structure LoadedKey (K : Type) where
  key : K
  blob : Bytes
  comment : Text

section respond

variable {K : Type} (sign : K → Bytes → ℕ → Option Bytes) (keys : List (LoadedKey K))

/-- `failure`. -/
def failure : Bytes := [sshAgentFailure]

/-- `identities_answer`. -/
def identitiesAnswer : Bytes :=
  sshAgentIdentitiesAnswer :: beBytes 4 keys.length ++
    keys.flatMap fun key => writeString key.blob ++ writeString (utf8 key.comment)

/-- `sign_response`. -/
def signResponse (reader : Reader) : Option Bytes := do
  let (blob, reader) ← reader.string
  let (data, reader) ← reader.string
  let (flags, _) ← reader.u32
  let key ← keys.find? fun key => key.blob = blob
  let signature ← sign key.key data flags
  return sshAgentSignResponse :: writeString signature

/-- `respond`. -/
def respond (request : Bytes) : Bytes :=
  match (Reader.new request).u8 with
  | some (kind, reader) =>
      if kind = sshAgentcRequestIdentities then identitiesAnswer keys
      else if kind = sshAgentcSignRequest then (signResponse sign keys reader).getD failure
      else failure
  | none => failure

/-- How serving a connection fails. -/
inductive IoError where
  | unexpectedEof
  | invalidData (message : String)
deriving DecidableEq

/-- `read_exact`, with what is left of the stream. -/
def readExact (count : ℕ) (stream : Bytes) : Option (Bytes × Bytes) :=
  if count ≤ stream.length then some (stream.take count, stream.drop count) else none

theorem readExact_length {count : ℕ} {stream bytes rest : Bytes}
    (h : readExact count stream = some (bytes, rest)) : rest.length + count = stream.length := by
  unfold readExact at h
  split at h
  · cases h
    rw [List.length_drop]
    omega
  · cases h

def outOfRange (length : ℕ) : IoError :=
  .invalidData s!"ssh-agent request length {length} is out of range"

/-- `serve_connection`: what is written, and how it ends. -/
def serveConnection (stream : Bytes) : Bytes × Except IoError Unit :=
  match h : readExact 4 stream with
  | none => ([], .ok ())
  | some (header, rest) =>
      let length := ofBeBytes header
      if length = 0 ∨ maxMessageLength < length then ([], .error (outOfRange length))
      else
        match hrest : readExact length rest with
        | none => ([], .error .unexpectedEof)
        | some (request, rest) =>
            have := readExact_length h
            have := readExact_length hrest
            let response := respond sign keys request
            let (written, ending) := serveConnection rest
            (beBytes 4 response.length ++ response ++ written, ending)
termination_by stream.length

end respond

/-! ### What a reader takes -/

/-- What is left to read. -/
def Reader.rest (reader : Reader) : Bytes := reader.bytes.drop reader.offset

theorem Reader.rest_new (bytes : Bytes) : (Reader.new bytes).rest = bytes := rfl

namespace Reader

variable {reader next : Reader}

theorem take_append {count : ℕ} {slice tail : Bytes} (hcount : slice.length = count)
    (h : reader.rest = slice ++ tail) :
    ∃ next, reader.take count = some (⟨slice, hcount⟩, next) ∧ next.rest = tail := by
  subst hcount
  have hinside := reader.inside
  have hlength : (reader.bytes.drop reader.offset).length = (slice ++ tail).length :=
    congrArg List.length h
  rw [List.length_drop, List.length_append] at hlength
  have hfits : reader.offset + slice.length ≤ reader.bytes.length := by omega
  have hslice : (reader.bytes.drop reader.offset).take slice.length = slice := by
    show reader.rest.take slice.length = slice
    rw [h, List.take_left']
    rfl
  refine ⟨⟨reader.bytes, reader.offset + slice.length, hfits⟩, ?_, ?_⟩
  · rw [take, dif_pos hfits]
    congr 2
    exact Subtype.ext hslice
  · show reader.bytes.drop (reader.offset + slice.length) = tail
    rw [← List.drop_drop]
    show reader.rest.drop slice.length = tail
    rw [h, List.drop_left']
    rfl

theorem take_eq_some {count : ℕ} {slice : {slice : Bytes // slice.length = count}}
    (h : reader.take count = some (slice, next)) : reader.rest = slice.1 ++ next.rest := by
  unfold take at h
  split at h
  · cases h
    show reader.bytes.drop reader.offset = _ ++ reader.bytes.drop (reader.offset + count)
    rw [← List.drop_drop, List.take_append_drop]
  · cases h

theorem u8_cons {b : UInt8} {tail : Bytes} (h : reader.rest = b :: tail) :
    ∃ next, reader.u8 = some (b, next) ∧ next.rest = tail := by
  obtain ⟨next, htake, hrest⟩ := @take_append reader 1 [b] tail rfl h
  refine ⟨next, ?_, hrest⟩
  rw [u8, htake]
  rfl

theorem u32_append {n : ℕ} {tail : Bytes} (hn : n < 2 ^ 32)
    (h : reader.rest = beBytes 4 n ++ tail) :
    ∃ next, reader.u32 = some (n, next) ∧ next.rest = tail := by
  obtain ⟨next, htake, hrest⟩ := take_append (Framing.length_beBytes 4 n) h
  refine ⟨next, ?_, hrest⟩
  have hread : ofBeBytes (beBytes 4 n) = n := by
    rw [Framing.ofBeBytes_beBytes]
    exact Nat.mod_eq_of_lt hn
  rw [u32, htake, Option.map_some]
  dsimp only
  rw [hread]

theorem u32_eq_some {n : ℕ} (h : reader.u32 = some (n, next)) :
    reader.rest = beBytes 4 n ++ next.rest ∧ n < 2 ^ 32 := by
  obtain ⟨⟨⟨slice, hslice⟩, next'⟩, htake, heq⟩ := Option.map_eq_some_iff.mp h
  cases heq
  rw [take_eq_some htake]
  dsimp only
  constructor
  · conv_lhs => rw [← Framing.beBytes_ofBeBytes slice, hslice]
  · have := Framing.ofBeBytes_lt slice
    rw [hslice] at this
    exact this

theorem string_append {s tail : Bytes} (hs : s.length < 2 ^ 32)
    (h : reader.rest = writeString s ++ tail) :
    ∃ next, reader.string = some (s, next) ∧ next.rest = tail := by
  rw [writeString, List.append_assoc] at h
  obtain ⟨middle, hlength, hmiddle⟩ := u32_append hs h
  obtain ⟨next, htake, hrest⟩ := take_append rfl hmiddle
  refine ⟨next, ?_, hrest⟩
  rw [string, hlength, Option.bind_some]
  dsimp only
  rw [htake]
  rfl

theorem string_eq_some {s : Bytes} (h : reader.string = some (s, next)) :
    reader.rest = writeString s ++ next.rest ∧ s.length < 2 ^ 32 := by
  obtain ⟨⟨length, middle⟩, hlength, h⟩ := Option.bind_eq_some_iff.mp h
  obtain ⟨⟨⟨slice, hslice⟩, next'⟩, htake, heq⟩ := Option.map_eq_some_iff.mp h
  cases heq
  obtain ⟨hrest, hbound⟩ := u32_eq_some hlength
  rw [hrest, take_eq_some htake, writeString, hslice, List.append_assoc]
  exact ⟨rfl, hbound⟩

end Reader

/-! ### Frames -/

/-- A length that is accepted. -/
def Accepted (message : Bytes) : Prop := 1 ≤ message.length ∧ message.length ≤ maxMessageLength

/-- A stream that begins with no complete frame of an accepted length, and how serving it ends. -/
inductive Stops : Bytes → Except IoError Unit → Prop
  | ended {rest : Bytes} : rest.length < 4 → Stops rest (.ok ())
  | outOfRange {length : ℕ} {rest : Bytes} :
      length < 2 ^ 32 → length = 0 ∨ maxMessageLength < length →
      Stops (beBytes 4 length ++ rest) (.error (outOfRange length))
  | truncated {length : ℕ} {rest : Bytes} :
      1 ≤ length → length ≤ maxMessageLength → rest.length < length →
      Stops (beBytes 4 length ++ rest) (.error .unexpectedEof)

/-- A stream is the frames of some requests, and a rest that stops. -/
def Framed (stream : Bytes) (requests : List Bytes) (ending : Except IoError Unit) : Prop :=
  (∀ request ∈ requests, Accepted request) ∧
    ∃ rest, stream = requests.flatMap writeString ++ rest ∧ Stops rest ending

theorem readExact_append {count : ℕ} {bytes rest : Bytes} (h : bytes.length = count) :
    readExact count (bytes ++ rest) = some (bytes, rest) := by
  rw [readExact, if_pos (by rw [List.length_append]; omega), List.take_left' h, List.drop_left' h]

theorem readExact_header (length : ℕ) (rest : Bytes) :
    readExact 4 (beBytes 4 length ++ rest) = some (beBytes 4 length, rest) :=
  readExact_append (Framing.length_beBytes 4 length)

theorem readExact_short {count : ℕ} {stream : Bytes} (h : stream.length < count) :
    readExact count stream = none :=
  if_neg (not_le.mpr h)

theorem readExact_eq_some {count : ℕ} {stream bytes rest : Bytes}
    (h : readExact count stream = some (bytes, rest)) :
    stream = bytes ++ rest ∧ bytes.length = count := by
  unfold readExact at h
  split at h
  · next hcount =>
      cases h
      exact ⟨(List.take_append_drop count stream).symm, List.length_take_of_le hcount⟩
  · cases h

theorem ofBeBytes_length {length : ℕ} (h : length < 2 ^ 32) :
    ofBeBytes (beBytes 4 length) = length := by
  rw [Framing.ofBeBytes_beBytes]
  exact Nat.mod_eq_of_lt h

/-- A header is that of the length it writes. -/
theorem header_eq {header : Bytes} (h : header.length = 4) :
    header = beBytes 4 (ofBeBytes header) ∧ ofBeBytes header < 2 ^ 32 := by
  constructor
  · conv_lhs => rw [← Framing.beBytes_ofBeBytes header, h]
  · have := Framing.ofBeBytes_lt header
    rw [h] at this
    exact this

section serve

variable {K : Type} (sign : K → Bytes → ℕ → Option Bytes) (keys : List (LoadedKey K))

theorem serveConnection_stop {rest : Bytes} {ending : Except IoError Unit} (h : Stops rest ending) :
    serveConnection sign keys rest = ([], ending) := by
  rw [serveConnection]
  cases h with
  | ended hshort =>
      split
      · rfl
      · next hsome =>
          rw [readExact_short hshort] at hsome
          cases hsome
  | outOfRange hlength hout =>
      split
      · next hnone =>
          rw [readExact_header] at hnone
          cases hnone
      · next hsome =>
          rw [readExact_header] at hsome
          cases hsome
          dsimp only
          rw [ofBeBytes_length hlength, if_pos hout]
  | @truncated length rest hpos hmax hshort =>
      split
      · next hnone =>
          rw [readExact_header] at hnone
          cases hnone
      · next hsome =>
          rw [readExact_header] at hsome
          cases hsome
          have hbound : length < 2 ^ 32 := lt_of_le_of_lt hmax (by decide)
          dsimp only
          rw [if_neg (by rw [ofBeBytes_length hbound]; omega)]
          split
          · rfl
          · next hrequest =>
              rw [ofBeBytes_length hbound, readExact_short hshort] at hrequest
              cases hrequest

/-- A frame gets its answer, and then comes what follows it. -/
theorem serveConnection_frame {request : Bytes} (h : Accepted request) (rest : Bytes) :
    serveConnection sign keys (writeString request ++ rest) =
      (writeString (respond sign keys request) ++ (serveConnection sign keys rest).1,
        (serveConnection sign keys rest).2) := by
  have hbound : request.length < 2 ^ 32 := lt_of_le_of_lt h.2 (by decide)
  have hpos := h.1
  have hmax := h.2
  conv_lhs => rw [serveConnection]
  have hheader : readExact 4 (writeString request ++ rest) =
      some (beBytes 4 request.length, request ++ rest) := by
    rw [writeString, List.append_assoc]
    exact readExact_header _ _
  split
  · next hnone =>
      rw [hheader] at hnone
      cases hnone
  · next hsome =>
      rw [hheader] at hsome
      cases hsome
      dsimp only
      rw [if_neg (by rw [ofBeBytes_length hbound]; omega)]
      split
      · next hnone =>
          rw [ofBeBytes_length hbound, readExact_append rfl] at hnone
          cases hnone
      · next hrequest =>
          rw [ofBeBytes_length hbound, readExact_append rfl] at hrequest
          cases hrequest
          rfl

/-- Each frame gets its answer, in order. -/
theorem serveConnection_framed {stream : Bytes} {requests : List Bytes}
    {ending : Except IoError Unit} (h : Framed stream requests ending) :
    serveConnection sign keys stream =
      ((requests.map (respond sign keys)).flatMap writeString, ending) := by
  obtain ⟨haccepted, rest, rfl, hrest⟩ := h
  induction requests with
  | nil => exact serveConnection_stop sign keys hrest
  | cons request requests ih =>
      rw [List.flatMap_cons, List.append_assoc,
        serveConnection_frame sign keys (haccepted request List.mem_cons_self),
        ih fun other hother => haccepted other (List.mem_cons_of_mem _ hother)]
      rfl

end serve

theorem Framed.stop {stream : Bytes} {ending : Except IoError Unit} (h : Stops stream ending) :
    Framed stream [] ending := ⟨by simp, stream, rfl, h⟩

theorem Framed.cons {stream request : Bytes} {requests : List Bytes} {ending : Except IoError Unit}
    (hrequest : Accepted request) (h : Framed stream requests ending) :
    Framed (writeString request ++ stream) (request :: requests) ending := by
  obtain ⟨haccepted, rest, rfl, hrest⟩ := h
  refine ⟨?_, rest, ?_, hrest⟩
  · intro other hother
    rcases List.mem_cons.mp hother with rfl | hother
    · exact hrequest
    · exact haccepted other hother
  · rw [List.flatMap_cons, List.append_assoc]

/-- Every stream is some frames and what stops it. -/
theorem exists_framed (stream : Bytes) : ∃ requests ending, Framed stream requests ending := by
  induction hn : stream.length using Nat.strong_induction_on generalizing stream with
  | _ n ih =>
      by_cases hshort : stream.length < 4
      · exact ⟨[], _, .stop (.ended hshort)⟩
      · have hheader : readExact 4 stream = some (stream.take 4, stream.drop 4) :=
          if_pos (not_lt.mp hshort)
        obtain ⟨hsplit, hfour⟩ := readExact_eq_some hheader
        obtain ⟨hlength, hbound⟩ := header_eq hfour
        rw [hlength] at hsplit
        generalize ofBeBytes (stream.take 4) = length at hsplit hbound
        by_cases hout : length = 0 ∨ maxMessageLength < length
        · rw [hsplit]
          exact ⟨[], _, .stop (.outOfRange hbound hout)⟩
        · rw [not_or, not_lt] at hout
          obtain ⟨hpos, hmax⟩ := hout
          by_cases htruncated : (stream.drop 4).length < length
          · rw [hsplit]
            exact ⟨[], _, .stop (.truncated (Nat.one_le_iff_ne_zero.mpr hpos) hmax htruncated)⟩
          · have hrequest : readExact length (stream.drop 4) =
                some ((stream.drop 4).take length, (stream.drop 4).drop length) :=
                  if_pos (not_lt.mp htruncated)
            obtain ⟨hwhole, hcount⟩ := readExact_eq_some hrequest
            obtain ⟨requests, ending, hframed⟩ :=
              ih ((stream.drop 4).drop length).length
                (by rw [List.length_drop, List.length_drop]; omega) _ rfl
            have haccepted : Accepted ((stream.drop 4).take length) := ⟨by omega, by omega⟩
            have hstream : writeString ((stream.drop 4).take length) ++
                (stream.drop 4).drop length = stream := by
              rw [writeString, hcount, List.append_assoc, ← hwhole]
              exact hsplit.symm
            have hmore := Framed.cons haccepted hframed
            rw [hstream] at hmore
            exact ⟨_, ending, hmore⟩

/-- A frame of a message under 4 GiB is told from what follows it. -/
theorem writeString_append_inj {message message' rest rest' : Bytes} (h : message.length < 2 ^ 32)
    (h' : message'.length < 2 ^ 32)
    (heq : writeString message ++ rest = writeString message' ++ rest') :
    message = message' ∧ rest = rest' := by
  rw [writeString, writeString, List.append_assoc, List.append_assoc] at heq
  obtain ⟨hheader, hrest⟩ := List.append_inj heq (by simp)
  have hlength : message.length = message'.length := by
    rw [← ofBeBytes_length h, hheader, ofBeBytes_length h']
  exact List.append_inj hrest hlength

/-- Messages under 4 GiB are read back from their frames. -/
theorem flatMap_writeString_inj {messages messages' : List Bytes}
    (h : ∀ message ∈ messages, message.length < 2 ^ 32)
    (h' : ∀ message ∈ messages', message.length < 2 ^ 32)
    (heq : messages.flatMap writeString = messages'.flatMap writeString) :
    messages = messages' := by
  have hne : ∀ (message : Bytes) (rest : Bytes), writeString message ++ rest ≠ [] := by
    intro message rest hnil
    have := congrArg List.length hnil
    simp [writeString] at this
  induction messages generalizing messages' with
  | nil =>
      cases messages' with
      | nil => rfl
      | cons message' messages' => exact absurd heq.symm (hne _ _)
  | cons message messages ih =>
      cases messages' with
      | nil => exact absurd heq (hne _ _)
      | cons message' messages' =>
          obtain ⟨rfl, hrest⟩ :=
            writeString_append_inj (h message List.mem_cons_self) (h' message' List.mem_cons_self)
            heq
          rw [ih (fun m hm => h m (List.mem_cons_of_mem _ hm))
            (fun m hm => h' m (List.mem_cons_of_mem _ hm)) hrest]

/-! ### The kinds of request -/

/-- The pairs that a client reads, one after the other. -/
def readPairs : ℕ → Reader → Option (List (Bytes × Bytes) × Reader)
  | 0, reader => some ([], reader)
  | count + 1, reader => do
      let (blob, reader) ← reader.string
      let (comment, reader) ← reader.string
      let (pairs, reader) ← readPairs count reader
      return ((blob, comment) :: pairs, reader)

/-- What a client reads from an answer to an identities request, with nothing left over. -/
def readIdentities (answer : Bytes) : Option (List (Bytes × Bytes)) := do
  let (kind, reader) ← (Reader.new answer).u8
  if kind = sshAgentIdentitiesAnswer then
    let (count, reader) ← reader.u32
    let (pairs, reader) ← readPairs count reader
    if reader.rest = [] then return pairs else none
  else none

/-- The pairs of a key list. -/
def LoadedKey.pair {K : Type} (key : LoadedKey K) : Bytes × Bytes := (key.blob, utf8 key.comment)

/-- A sign request, with anything after it. -/
def signRequest (blob data : Bytes) (flags : ℕ) (trailing : Bytes) : Bytes :=
  sshAgentcSignRequest :: (writeString blob ++ (writeString data ++ (beBytes 4 flags ++ trailing)))

/-- A request of neither kind: one that is empty, of another kind, or cut short. -/
def Malformed (request : Bytes) : Prop :=
  (∀ trailing, request ≠ sshAgentcRequestIdentities :: trailing) ∧
    ∀ blob data flags trailing, blob.length < 2 ^ 32 → data.length < 2 ^ 32 → flags < 2 ^ 32 →
      request ≠ signRequest blob data flags trailing

theorem readPairs_append (pairs : List (Bytes × Bytes)) {reader : Reader} {tail : Bytes}
    (h : ∀ pair ∈ pairs, pair.1.length < 2 ^ 32 ∧ pair.2.length < 2 ^ 32)
    (hrest : reader.rest = pairs.flatMap
      (fun pair => writeString pair.1 ++ writeString pair.2) ++ tail) :
    ∃ next, readPairs pairs.length reader = some (pairs, next) ∧ next.rest = tail := by
  induction pairs generalizing reader with
  | nil => exact ⟨reader, rfl, hrest⟩
  | cons pair pairs ih =>
      rw [List.flatMap_cons, List.append_assoc, List.append_assoc] at hrest
      obtain ⟨hblob, hcomment⟩ := h pair List.mem_cons_self
      obtain ⟨first, hfirst, hrest⟩ := Reader.string_append hblob hrest
      obtain ⟨second, hsecond, hrest⟩ := Reader.string_append hcomment hrest
      obtain ⟨next, hnext, hrest⟩ := ih (fun p hp => h p (List.mem_cons_of_mem _ hp)) hrest
      refine ⟨next, ?_, hrest⟩
      rw [List.length_cons, readPairs, hfirst, Option.bind_eq_bind, Option.bind_some]
      dsimp only
      rw [hsecond, Option.bind_eq_bind, Option.bind_some]
      dsimp only
      rw [hnext]
      rfl

section respond

variable {K : Type} (sign : K → Bytes → ℕ → Option Bytes) (keys : List (LoadedKey K))

theorem respond_cons {kind : UInt8} {tail : Bytes} : ∃ reader : Reader, reader.rest = tail ∧
    respond sign keys (kind :: tail) =
      if kind = sshAgentcRequestIdentities then identitiesAnswer keys
      else if kind = sshAgentcSignRequest then (signResponse sign keys reader).getD failure
      else failure := by
  obtain ⟨reader, hkind, hrest⟩ := Reader.u8_cons (Reader.rest_new (kind :: tail))
  refine ⟨reader, hrest, ?_⟩
  rw [respond, hkind]

theorem respond_identities (trailing : Bytes) :
    respond sign keys (sshAgentcRequestIdentities :: trailing) = identitiesAnswer keys := by
  obtain ⟨reader, -, h⟩ := @respond_cons K sign keys sshAgentcRequestIdentities trailing
  rw [h, if_pos rfl]

/-- The answer to an identities request reads back as the keys. -/
theorem readIdentities_identitiesAnswer (hcount : keys.length < 2 ^ 32)
    (hkeys : ∀ key ∈ keys, key.blob.length < 2 ^ 32 ∧ (utf8 key.comment).length < 2 ^ 32) :
    readIdentities (identitiesAnswer keys) = some (keys.map LoadedKey.pair) := by
  obtain ⟨afterKind, hkind, hrest⟩ := Reader.u8_cons (Reader.rest_new (identitiesAnswer keys))
  obtain ⟨afterCount, hread, hrest⟩ := Reader.u32_append hcount hrest
  have hpairs : ∀ pair ∈ keys.map LoadedKey.pair,
      pair.1.length < 2 ^ 32 ∧ pair.2.length < 2 ^ 32 := by
    intro pair hpair
    obtain ⟨key, hkey, rfl⟩ := List.mem_map.mp hpair
    exact hkeys key hkey
  have hwritten : afterCount.rest = (keys.map LoadedKey.pair).flatMap
      (fun pair => writeString pair.1 ++ writeString pair.2) ++ [] := by
    rw [hrest, List.append_nil, List.flatMap_map]
    rfl
  obtain ⟨last, hlast, hend⟩ := readPairs_append _ hpairs hwritten
  rw [List.length_map] at hlast
  rw [readIdentities, hkind, Option.bind_eq_bind, Option.bind_some]
  dsimp only
  rw [if_pos rfl, hread, Option.bind_eq_bind, Option.bind_some]
  dsimp only
  rw [hlast, Option.bind_eq_bind, Option.bind_some]
  exact if_pos hend

/-- The count in front of the keys is their number cut to 32 bits. -/
theorem readIdentities_wrapped (hcount : keys.length = 2 ^ 32) :
    readIdentities (identitiesAnswer keys) ≠ some (keys.map LoadedKey.pair) := by
  intro h
  obtain ⟨afterKind, hkind, hrest⟩ := Reader.u8_cons (Reader.rest_new (identitiesAnswer keys))
  have hzero : beBytes 4 keys.length = beBytes 4 0 := by
    rw [hcount]
    decide
  rw [hzero] at hrest
  obtain ⟨afterCount, hread, -⟩ := Reader.u32_append (by decide) hrest
  rw [readIdentities, hkind, Option.bind_eq_bind, Option.bind_some] at h
  dsimp only at h
  rw [if_pos rfl, hread, Option.bind_eq_bind, Option.bind_some] at h
  dsimp only at h
  rw [readPairs, Option.bind_eq_bind, Option.bind_some] at h
  dsimp only at h
  split at h
  · have hempty := congrArg List.length (Option.some.inj h)
    rw [List.length_map, hcount] at hempty
    exact absurd hempty (by decide)
  · cases h

theorem respond_sign {blob data : Bytes} {flags : ℕ} (hblob : blob.length < 2 ^ 32)
    (hdata : data.length < 2 ^ 32) (hflags : flags < 2 ^ 32) (trailing : Bytes) :
    respond sign keys (signRequest blob data flags trailing) =
      (((keys.find? fun key => key.blob = blob).bind fun key =>
        sign key.key data flags).map fun signature =>
        sshAgentSignResponse :: writeString signature).getD failure := by
  obtain ⟨reader, hrest, h⟩ := @respond_cons K sign keys sshAgentcSignRequest
    (writeString blob ++ (writeString data ++ (beBytes 4 flags ++ trailing)))
  obtain ⟨afterBlob, hreadBlob, hrest⟩ := Reader.string_append hblob hrest
  obtain ⟨afterData, hreadData, hrest⟩ := Reader.string_append hdata hrest
  obtain ⟨afterFlags, hreadFlags, -⟩ := Reader.u32_append hflags hrest
  rw [signRequest, h, if_neg (by decide), if_pos rfl, signResponse, hreadBlob,
    Option.bind_eq_bind, Option.bind_some]
  dsimp only
  rw [hreadData, Option.bind_eq_bind, Option.bind_some]
  dsimp only
  rw [hreadFlags, Option.bind_eq_bind, Option.bind_some]
  dsimp only
  cases keys.find? fun key => key.blob = blob with
  | none => rfl
  | some key =>
      rw [Option.bind_eq_bind, Option.bind_some, Option.bind_some]
      cases sign key.key data flags with
      | none => rfl
      | some signature => rfl

/-- A signature is one over just the data and flags of the request, with the first key that has its
blob. -/
theorem respond_sign_iff {blob data : Bytes} {flags : ℕ} (hblob : blob.length < 2 ^ 32)
    (hdata : data.length < 2 ^ 32) (hflags : flags < 2 ^ 32) (trailing signature : Bytes) :
    respond sign keys (signRequest blob data flags trailing) =
      sshAgentSignResponse :: writeString signature ↔
      ∃ before key after,
        keys = before ++ key :: after ∧ key.blob = blob ∧ (∀ other ∈ before, other.blob ≠ blob) ∧
        sign key.key data flags = some signature := by
  rw [respond_sign sign keys hblob hdata hflags]
  constructor
  · intro h
    cases hfind : keys.find? fun key => key.blob = blob with
    | none =>
        rw [hfind] at h
        cases h
    | some key =>
        rw [hfind, Option.bind_some] at h
        obtain ⟨hkey, before, after, hkeys, hbefore⟩ := List.find?_eq_some_iff_append.mp hfind
        cases hsign : sign key.key data flags with
        | none =>
            rw [hsign] at h
            cases h
        | some signature' =>
            rw [hsign, Option.map_some, Option.getD_some] at h
            have hsame : signature' = signature := by
              have htail := (List.cons.inj h).2
              unfold writeString at htail
              exact (List.append_inj htail (by simp)).2
            refine ⟨before, key, after, hkeys, by simpa using hkey, ?_, hsame ▸ hsign⟩
            intro other hother
            simpa using hbefore other hother
  · rintro ⟨before, key, after, rfl, hkey, hbefore, hsign⟩
    have hfind : (before ++ key :: after).find? (fun key => key.blob = blob) = some key := by
      rw [List.find?_eq_some_iff_append]
      refine ⟨by simpa using hkey, before, after, rfl, ?_⟩
      intro other hother
      simpa using hbefore other hother
    rw [hfind, Option.bind_some, hsign]
    rfl

theorem respond_malformed {request : Bytes} (h : Malformed request) :
    respond sign keys request = failure := by
  cases request with
  | nil => rfl
  | cons kind tail =>
      obtain ⟨reader, hrest, hrespond⟩ := @respond_cons K sign keys kind tail
      rw [hrespond]
      split
      · next hkind => exact absurd (by rw [hkind]) (h.1 tail)
      · split
        · next hkind =>
            cases hsign : signResponse sign keys reader with
            | none => rfl
            | some response =>
                unfold signResponse at hsign
                obtain ⟨⟨blob, afterBlob⟩, hblob, hsign⟩ := Option.bind_eq_some_iff.mp hsign
                obtain ⟨⟨data, afterData⟩, hdata, hsign⟩ := Option.bind_eq_some_iff.mp hsign
                obtain ⟨⟨flags, afterFlags⟩, hflags, -⟩ := Option.bind_eq_some_iff.mp hsign
                obtain ⟨hrestBlob, hblobBound⟩ := Reader.string_eq_some hblob
                obtain ⟨hrestData, hdataBound⟩ := Reader.string_eq_some hdata
                obtain ⟨hrestFlags, hflagsBound⟩ := Reader.u32_eq_some hflags
                refine absurd ?_ (h.2 blob data flags afterFlags.rest hblobBound
                  hdataBound hflagsBound)
                rw [signRequest, hkind, ← hrest, hrestBlob, hrestData, hrestFlags]
        · rfl

end respond

/-- For every signing primitive, client, and key list whose number fits its count: each complete
frame of an accepted length gets its answer, in order, and the first that is none stops it, and
answers under 4 GiB are told apart; the answer to an identities request reads back as the keys; a
sign request gets what the primitive yields for just its data and flags with the first key of its
blob, or the failure byte; and anything else gets the failure byte. -/
theorem ssh_agent_answers {K : Type} (sign : K → Bytes → ℕ → Option Bytes)
    (keys : List (LoadedKey K)) (hcount : keys.length < 2 ^ 32)
    (hkeys : ∀ key ∈ keys, key.blob.length < 2 ^ 32 ∧ (utf8 key.comment).length < 2 ^ 32) :
    (∀ stream, ∃ requests ending, Framed stream requests ending) ∧
      (∀ stream requests ending, Framed stream requests ending →
        serveConnection sign keys stream =
          ((requests.map (respond sign keys)).flatMap writeString, ending)) ∧
      (∀ stream requests ending, Framed stream requests ending →
        (∀ request ∈ requests, (respond sign keys request).length < 2 ^ 32) →
        ∀ answers : List Bytes, (∀ answer ∈ answers, answer.length < 2 ^ 32) →
          answers.flatMap writeString = (serveConnection sign keys stream).1 →
            answers = requests.map (respond sign keys)) ∧
      (∀ trailing, readIdentities (respond sign keys (sshAgentcRequestIdentities :: trailing)) =
        some (keys.map LoadedKey.pair)) ∧
      (∀ blob data flags trailing, blob.length < 2 ^ 32 → data.length < 2 ^ 32 → flags < 2 ^ 32 →
        (∀ signature, respond sign keys (signRequest blob data flags trailing) =
            sshAgentSignResponse :: writeString signature ↔
          ∃ before key after, keys = before ++ key :: after ∧ key.blob = blob ∧
            (∀ other ∈ before, other.blob ≠ blob) ∧ sign key.key data flags = some signature) ∧
        ((∀ signature, respond sign keys (signRequest blob data flags trailing) ≠
            sshAgentSignResponse :: writeString signature) →
          respond sign keys (signRequest blob data flags trailing) = failure)) ∧
      ∀ request, Malformed request → respond sign keys request = failure := by
  refine ⟨exists_framed, fun stream requests ending h => serveConnection_framed sign keys h,
    ?_, ?_, ?_,
    fun request h => respond_malformed sign keys h⟩
  · intro stream requests ending h hshort answers hanswers hwritten
    rw [serveConnection_framed sign keys h] at hwritten
    refine flatMap_writeString_inj hanswers ?_ hwritten
    intro response hresponse
    obtain ⟨request, hrequest, rfl⟩ := List.mem_map.mp hresponse
    exact hshort request hrequest
  · intro trailing
    rw [respond_identities]
    exact readIdentities_identitiesAnswer keys hcount hkeys
  · intro blob data flags trailing hblob hdata hflags
    refine ⟨fun signature => respond_sign_iff sign keys hblob hdata hflags trailing signature, ?_⟩
    rw [respond_sign sign keys hblob hdata hflags]
    intro hnone
    cases hsign : (keys.find? fun key => key.blob = blob).bind fun key =>
      sign key.key data flags with
    | none => rfl
    | some signature =>
        rw [hsign] at hnone
        exact absurd rfl (hnone signature)

/-- A primitive that signs with the flag for SHA-512 only, and puts the key before the data. -/
def signData (key : UInt8) (data : Bytes) (flags : ℕ) : Option Bytes :=
  if flags = 4 then some (key :: data) else none

/-- Two keys with one blob. -/
def sameBlob : List (LoadedKey UInt8) := [⟨1, [7], ['a']⟩, ⟨2, [7], ['b']⟩]

theorem ssh_agent_answers_sameBlob :
    serveConnection signData sameBlob (writeString (signRequest [7] [9] 4 []) ++ [0, 0]) =
        (writeString (respond signData sameBlob (signRequest [7] [9] 4 [])), .ok ()) ∧
      respond signData sameBlob (signRequest [7] [9] 4 []) =
        sshAgentSignResponse :: writeString [1, 9] := by
  have hanswers := ssh_agent_answers signData sameBlob (by decide) (by decide)
  have hframed : Framed (writeString (signRequest [7] [9] 4 []) ++ [0, 0])
      [signRequest [7] [9] 4 []] (.ok ()) :=
    .cons ⟨by decide, by decide⟩ (.stop (.ended (by decide)))
  constructor
  · rw [hanswers.2.1 _ _ _ hframed]
    simp
  · exact ((hanswers.2.2.2.2.1 [7] [9] 4 [] (by decide) (by decide) (by decide)).1 [1, 9]).mpr
      ⟨[], ⟨1, [7], ['a']⟩, [⟨2, [7], ['b']⟩], rfl, rfl, by simp, rfl⟩

/-- As many keys as there are values of the count. -/
def tooManyKeys : List (LoadedKey UInt8) := List.replicate (2 ^ 32) ⟨0, [], []⟩

theorem too_many_keys :
    (∀ key ∈ tooManyKeys, key.blob.length < 2 ^ 32 ∧ (utf8 key.comment).length < 2 ^ 32) ∧
      readIdentities (respond signData tooManyKeys [sshAgentcRequestIdentities]) ≠
        some (tooManyKeys.map LoadedKey.pair) := by
  constructor
  · intro key hkey
    rw [List.eq_of_mem_replicate hkey]
    decide
  · rw [respond_identities]
    exact readIdentities_wrapped tooManyKeys List.length_replicate

end Ratect.SshAgent
