import Ratect.Lines
import Ratect.Framing

/-! # Ports that only loopback addresses listen on

`loopback_only_ports_in` and the reading of `/proc/net/tcp` lines (`proxy.rs`), and how a
little-endian kernel prints its sockets.  The kernel prints each word of an address as the number
its bytes are in memory, so the little-endian bytes of what is read are the address again
(`parseProcAddress_print`).  A row is then read as its socket (`listeningSocket_row`), and a header
as none. -/

namespace Ratect.ListeningSockets

open Framing (leBytes ofLeBytes)

/-! ### Reading a table -/

/-- Some bytes of a fixed number. -/
abbrev Octets (n : ℕ) := {bytes : List UInt8 // bytes.length = n}

/-- `IpAddr`. -/
inductive IpAddr where
  | v4 (octets : Octets 4)
  | v6 (octets : Octets 16)
deriving DecidableEq

/-- `IpAddr::is_loopback`: `127.0.0.0/8`, and `::1`. -/
def IpAddr.isLoopback : IpAddr → Bool
  | v4 octets => octets.1.head? = some 127
  | v6 octets => octets.1 = List.replicate 15 0 ++ [1]

/-- `Ipv6Addr::to_ipv4_mapped`. -/
def toIpv4Mapped (octets : Octets 16) : Option (Octets 4) :=
  if octets.1.take 12 = List.replicate 10 0 ++ [255, 255] then
    some ⟨octets.1.drop 12, by rw [List.length_drop, octets.2]⟩
  else none

/-- `char::to_digit` in hexadecimal. -/
def hexValue (c : Char) : Option ℕ :=
  if c.isDigit then some (c.toNat - 48)
  else if 'a' ≤ c ∧ c ≤ 'f' then some (c.toNat - 87)
  else if 'A' ≤ c ∧ c ≤ 'F' then some (c.toNat - 55)
  else none

/-- `from_str_radix` in hexadecimal, to an unsigned integer of at most `max`: one `+` may lead
it. -/
def fromHex (max : ℕ) (t : Text) : Option ℕ :=
  let digits := if t.head? = some '+' then t.tail else t
  if digits = [] then none
  else ((digits.mapM hexValue).map fun values =>
    values.foldl (fun n value => 16 * n + value) 0).filter (· ≤ max)

/-- `to_le_bytes` of a `u32`. -/
def toLeBytes (n : ℕ) : Octets 4 := ⟨leBytes 4 n, Framing.length_leBytes 4 n⟩

/-- The word that the eight digits of one group are, of those that `chunks` leaves in a text of
ASCII; any other text of that many bytes has a group that is no number. -/
def word (hex : Text) (group : ℕ) : Option (Octets 4) :=
  (fromHex (2 ^ 32 - 1) ((hex.drop (8 * group)).take 8)).map toLeBytes

/-- `parse_proc_address`. -/
def parseProcAddress (hex : Text) : Option IpAddr :=
  if byteLength hex = 8 then (word hex 0).map .v4
  else if byteLength hex = 32 then do
    let a ← word hex 0
    let b ← word hex 1
    let c ← word hex 2
    let d ← word hex 3
    let octets : Octets 16 := ⟨a.1 ++ b.1 ++ c.1 ++ d.1, by simp [a.2, b.2, c.2, d.2]⟩
    match toIpv4Mapped octets with
    | some mapped => return .v4 mapped
    | none => return .v6 octets
  else none

/-- `split_whitespace`. -/
def splitWhitespace (t : Text) : List Text := (t.splitOnP isWhitespace).filter (· ≠ [])

/-- `listening_socket`. -/
def listeningSocket (line : Text) : Option (IpAddr × ℕ) :=
  match splitWhitespace line with
  | _slot :: localField :: _remote :: state :: _ =>
      if state ≠ ['0', 'A'] then none
      else do
        let (address, port) ← splitOnce ':' localField
        let address ← parseProcAddress address
        let port ← fromHex (2 ^ 16 - 1) port
        return (address, port)
  | _ => none

/-- The test of `loopback_only_ports_in`: the first socket on the port, and then all that are
left. -/
def loopbackOnly (listening : List (IpAddr × ℕ)) (port : ℕ) : Bool :=
  match listening.filter fun socket => socket.2 = port with
  | [] => false
  | first :: onThisPort => first.1.isLoopback && onThisPort.all fun socket => socket.1.isLoopback

/-- `loopback_only_ports_in`. -/
def loopbackOnlyPortsIn (tables : List Text) (ports : Finset ℕ) : Finset ℕ :=
  ports.filter fun port =>
    loopbackOnly ((tables.flatMap lines).filterMap listeningSocket) port = true

/-! ### What the kernel prints -/

/-- A TCP socket, its address in network order. -/
structure Socket where
  address : IpAddr
  port : UInt16
  state : UInt8

/-- `TCP_LISTEN`. -/
def tcpListen : UInt8 := 10

/-- A hexadecimal digit in upper case. -/
def hexDigit (n : ℕ) : Char := "0123456789ABCDEF".toList.getD n '0'

/-- `%0*X`: as many digits as asked for, of a number that has no more. -/
def printHex : ℕ → ℕ → Text
  | 0, _ => []
  | width + 1, n => printHex width (n / 16) ++ [hexDigit (n % 16)]

/-- `%08X` of the number that four bytes are in the memory of a little-endian machine. -/
def printWord (bytes : List UInt8) : Text := printHex 8 (ofLeBytes bytes)

/-- An address, word by word. -/
def printAddress : IpAddr → Text
  | .v4 octets => printWord octets.1
  | .v6 octets => printWord (octets.1.take 4) ++ printWord ((octets.1.drop 4).take 4) ++
      printWord ((octets.1.drop 8).take 4) ++ printWord (octets.1.drop 12)

/-- A column: not empty, and no white space in it. -/
def Column (t : Text) : Prop := t ≠ [] ∧ ∀ c ∈ t, isWhitespace c = false

/-- The row of a socket, with what stands around its local address and state. -/
structure Row where
  socket : Socket
  pad : ℕ
  slot : Text
  remote : Text
  more : Text
  slot_column : Column slot
  remote_column : Column remote
  more_apart : ∀ c ∈ more.head?, isWhitespace c = true
  more_line : '\n' ∉ more ∧ '\r' ∉ more

def Row.text (row : Row) : Text :=
  List.replicate row.pad ' ' ++ row.slot ++ ' ' :: (printAddress row.socket.address ++
    ':' :: printHex 4 row.socket.port.toNat) ++ ' ' :: row.remote ++ ' ' ::
      printHex 2 row.socket.state.toNat ++ row.more

/-- A table: a header, whose fourth column is no state of a listening socket, and a row for each
socket. -/
structure Table where
  header : Text
  rows : List Row
  header_line : '\n' ∉ header ∧ '\r' ∉ header
  header_state : (splitWhitespace header)[3]? ≠ some ['0', 'A']

def Table.text (table : Table) : Text :=
  (table.header :: table.rows.map Row.text).flatMap (· ++ ['\n'])

def Table.sockets (table : Table) : List Socket := table.rows.map Row.socket

/-- An IPv4-mapped address counts as the one it maps. -/
def unmapped : IpAddr → IpAddr
  | .v4 octets => .v4 octets
  | .v6 octets => ((toIpv4Mapped octets).map .v4).getD (.v6 octets)

/-- A socket listens on a port. -/
def Socket.ListensOn (socket : Socket) (port : ℕ) : Prop :=
  socket.state = tcpListen ∧ socket.port.toNat = port

/-! ### Numbers -/

theorem hexValue_hexDigit :
    ∀ n < 16, hexValue (hexDigit n) = some n ∧ hexDigit n ≠ '+' ∧ hexDigit n ≠ ':' ∧
    isWhitespace (hexDigit n) = false ∧ (hexDigit n).utf8Size = 1 := by decide

theorem mem_printHex {width n : ℕ} {c : Char} (hc : c ∈ printHex width n) :
    ∃ d < 16, c = hexDigit d := by
  induction width generalizing n with
  | zero => cases hc
  | succ width ih =>
      rcases List.mem_append.mp hc with hc | hc
      · exact ih hc
      · exact ⟨n % 16, Nat.mod_lt _ (by omega), List.mem_singleton.mp hc⟩

@[simp]
theorem length_printHex (width n : ℕ) : (printHex width n).length = width := by
  induction width generalizing n with
  | zero => rfl
  | succ width ih => rw [printHex, List.length_append, ih, List.length_singleton]

theorem byteLength_printHex (width n : ℕ) : byteLength (printHex width n) = width := by
  induction width generalizing n with
  | zero => rfl
  | succ width ih =>
      have hsize := (hexValue_hexDigit (n % 16) (Nat.mod_lt _ (by omega))).2.2.2.2
      unfold byteLength at ih ⊢
      rw [printHex, List.map_append, List.sum_append, ih, List.map_singleton,
        List.sum_singleton, hsize]

/-- The values of the digits make up the number again. -/
theorem values_printHex {width n : ℕ} (h : n < 16 ^ width) :
    ∃ values, (printHex width n).mapM hexValue = some values ∧
    values.foldl (fun n value => 16 * n + value) 0 = n := by
  induction width generalizing n with
  | zero =>
      refine ⟨[], rfl, ?_⟩
      rw [pow_zero, Nat.lt_one_iff] at h
      exact h.symm
  | succ width ih =>
      have hhigh : n / 16 < 16 ^ width := by
        rw [pow_succ] at h
        omega
      obtain ⟨values, hvalues, hfold⟩ := ih hhigh
      have hdigit := (hexValue_hexDigit (n % 16) (Nat.mod_lt _ (by omega))).1
      refine ⟨values ++ [n % 16], ?_, ?_⟩
      · rw [printHex, List.mapM_append, hvalues, List.mapM_cons, hdigit]
        rfl
      · rw [List.foldl_append, hfold, List.foldl_cons, List.foldl_nil]
        omega

/-- A printed number is read back. -/
theorem fromHex_printHex {width n max : ℕ} (hwidth : 0 < width) (hn : n < 16 ^ width)
    (hmax : n ≤ max) : fromHex max (printHex width n) = some n := by
  obtain ⟨values, hvalues, hfold⟩ := values_printHex hn
  have hne : printHex width n ≠ [] := by
    intro hnil
    have := length_printHex width n
    rw [hnil] at this
    simp only [List.length_nil] at this
    omega
  have hplus : (printHex width n).head? ≠ some '+' := by
    intro hhead
    obtain ⟨d, hd, hc⟩ := mem_printHex (List.mem_of_mem_head? hhead)
    exact (hexValue_hexDigit d hd).2.1 hc.symm
  unfold fromHex
  rw [if_neg hplus]
  dsimp only
  rw [if_neg hne, hvalues, Option.map_some, hfold]
  simp [hmax]

/-! ### Addresses -/

@[simp]
theorem length_printWord (bytes : List UInt8) : (printWord bytes).length = 8 := length_printHex 8 _

theorem byteLength_printWord (bytes : List UInt8) : byteLength (printWord bytes) = 8 :=
  byteLength_printHex 8 _

theorem ofLeBytes_word_lt {bytes : List UInt8} (h : bytes.length = 4) :
    ofLeBytes bytes < 16 ^ 8 := by
  have hlt := Framing.ofLeBytes_lt bytes
  rw [h] at hlt
  exact lt_of_lt_of_eq hlt (by decide)

/-- A printed word is read as its bytes, wherever it stands among the groups. -/
theorem word_print {bytes : List UInt8} (h : bytes.length = 4) {before after : Text} {group : ℕ}
    (hbefore : before.length = 8 * group) :
    word (before ++ printWord bytes ++ after) group = some ⟨bytes, h⟩ := by
  have hgroup : ((before ++ printWord bytes ++ after).drop (8 * group)).take 8 =
      printWord bytes := by
    rw [List.append_assoc, List.drop_left' hbefore, List.take_left' (length_printWord bytes)]
  have hlt := ofLeBytes_word_lt h
  have hread : fromHex (2 ^ 32 - 1) (printWord bytes) = some (ofLeBytes bytes) :=
    fromHex_printHex (by decide) hlt (by omega)
  rw [word, hgroup, hread, Option.map_some]
  congr 1
  apply Subtype.ext
  show leBytes 4 (ofLeBytes bytes) = bytes
  conv_lhs => rw [← h]
  exact Framing.leBytes_ofLeBytes bytes

theorem byteLength_append (a b : Text) : byteLength (a ++ b) = byteLength a + byteLength b := by
  unfold byteLength
  rw [List.map_append, List.sum_append]

/-- A printed address is read back, an IPv4-mapped one as the one it maps. -/
theorem parseProcAddress_print (address : IpAddr) :
    parseProcAddress (printAddress address) = some (unmapped address) := by
  cases address with
  | v4 octets =>
      have hword := @word_print octets.1 octets.2 [] [] 0 rfl
      rw [List.nil_append, List.append_nil] at hword
      unfold parseProcAddress printAddress
      dsimp only
      rw [if_pos (byteLength_printWord _), hword]
      rfl
  | v6 octets =>
      have h0 : (octets.1.take 4).length = 4 := by rw [List.length_take, octets.2]; rfl
      have h1 : ((octets.1.drop 4).take 4).length = 4 := by
        rw [List.length_take, List.length_drop, octets.2]; rfl
      have h2 : ((octets.1.drop 8).take 4).length = 4 := by
        rw [List.length_take, List.length_drop, octets.2]; rfl
      have h3 : (octets.1.drop 12).length = 4 := by rw [List.length_drop, octets.2]
      have hlength : byteLength (printAddress (.v6 octets)) = 32 := by
        unfold printAddress
        dsimp only
        rw [byteLength_append, byteLength_append, byteLength_append, byteLength_printWord,
          byteLength_printWord, byteLength_printWord, byteLength_printWord]
      have hword0 : word (printAddress (.v6 octets)) 0 = some ⟨_, h0⟩ := by
        have h :=
          @word_print _ h0 [] (printWord ((octets.1.drop 4).take 4) ++
            printWord ((octets.1.drop 8).take 4) ++
          printWord (octets.1.drop 12)) 0 rfl
        rw [← h]
        simp [printAddress]
      have hword1 : word (printAddress (.v6 octets)) 1 = some ⟨_, h1⟩ := by
        have h :=
          @word_print _ h1 (printWord (octets.1.take 4)) (printWord ((octets.1.drop 8).take 4) ++
          printWord (octets.1.drop 12)) 1 (by simp)
        rw [← h]
        simp [printAddress]
      have hword2 : word (printAddress (.v6 octets)) 2 = some ⟨_, h2⟩ := by
        have h :=
          @word_print _ h2 (printWord (octets.1.take 4) ++ printWord ((octets.1.drop 4).take 4))
          (printWord (octets.1.drop 12)) 2 (by simp)
        rw [← h]
        simp [printAddress]
      have hword3 : word (printAddress (.v6 octets)) 3 = some ⟨_, h3⟩ := by
        have h :=
          @word_print _ h3 (printWord (octets.1.take 4) ++ printWord ((octets.1.drop 4).take 4) ++
          printWord ((octets.1.drop 8).take 4)) [] 3 (by simp)
        rw [← h]
        simp [printAddress]
      have hall : octets.1.take 4 ++ (octets.1.drop 4).take 4 ++
          (octets.1.drop 8).take 4 ++ octets.1.drop 12 =
          octets.1 := by
        have h8 : octets.1.drop 8 = (octets.1.drop 4).drop 4 := by rw [List.drop_drop]
        have h12 : octets.1.drop 12 = (octets.1.drop 8).drop 4 := by rw [List.drop_drop]
        rw [h12, List.append_assoc _ _ ((octets.1.drop 8).drop 4), List.take_append_drop,
          h8, List.append_assoc, List.take_append_drop, List.take_append_drop]
      have hmapped : ∀ octets' : Octets 16, octets'.1 = octets.1 →
          (match toIpv4Mapped octets' with
          | some mapped => pure (IpAddr.v4 mapped)
          | none => pure (IpAddr.v6 octets')) = some (unmapped (.v6 octets)) := by
        intro octets' hsame
        rw [Subtype.ext hsame]
        unfold unmapped
        dsimp only
        cases toIpv4Mapped octets <;> rfl
      unfold parseProcAddress
      rw [if_neg (by rw [hlength]; decide), if_pos hlength, hword0, hword1, hword2, hword3]
      dsimp only [Option.bind_eq_bind, Option.bind_some]
      exact hmapped _ hall

/-! ### Rows -/

theorem splitWhitespace_blank {c : Char} (hc : isWhitespace c = true) (rest : Text) :
    splitWhitespace (c :: rest) = splitWhitespace rest := by
  unfold splitWhitespace
  rw [List.splitOnP_cons_eq_if_modifyHead, if_pos hc]
  rfl

/-- A column before white space, or before the end. -/
theorem splitWhitespace_column {column rest : Text} (hcolumn : Column column)
    (hrest : ∀ c ∈ rest.head?, isWhitespace c = true) :
    splitWhitespace (column ++ rest) = column :: splitWhitespace rest := by
  cases rest with
  | nil =>
      unfold splitWhitespace
      rw [List.append_nil, List.splitOnP_eq_singleton hcolumn.2]
      simp [hcolumn.1, List.splitOnP_nil]
  | cons c rest =>
      rw [splitWhitespace_blank (hrest c rfl)]
      unfold splitWhitespace
      rw [List.splitOnP_append_cons_of_forall_mem hcolumn.2 c (hrest c rfl)]
      simp [hcolumn.1]

theorem splitWhitespace_pad (pad : ℕ) (rest : Text) :
    splitWhitespace (List.replicate pad ' ' ++ rest) = splitWhitespace rest := by
  induction pad with
  | zero => rfl
  | succ pad ih => rw [List.replicate_succ, List.cons_append, splitWhitespace_blank (by decide), ih]

theorem mem_printAddress {address : IpAddr} {c : Char} (hc : c ∈ printAddress address) :
    ∃ d < 16, c = hexDigit d := by
  cases address with
  | v4 octets => exact mem_printHex hc
  | v6 octets =>
      unfold printAddress at hc
      simp only [List.mem_append] at hc
      rcases hc with ((hc | hc) | hc) | hc
      · exact mem_printHex hc
      · exact mem_printHex hc
      · exact mem_printHex hc
      · exact mem_printHex hc

/-- The local field of a row. -/
def localField (socket : Socket) : Text :=
  printAddress socket.address ++ ':' :: printHex 4 socket.port.toNat

theorem column_localField (socket : Socket) : Column (localField socket) := by
  constructor
  · simp [localField]
  · intro c hc
    unfold localField at hc
    rcases List.mem_append.mp hc with hc | hc
    · obtain ⟨d, hd, rfl⟩ := mem_printAddress hc
      exact (hexValue_hexDigit d hd).2.2.2.1
    · rcases List.mem_cons.mp hc with rfl | hc
      · decide
      · obtain ⟨d, hd, rfl⟩ := mem_printHex hc
        exact (hexValue_hexDigit d hd).2.2.2.1

theorem column_state (state : UInt8) : Column (printHex 2 state.toNat) := by
  constructor
  · intro hnil
    have := length_printHex 2 state.toNat
    rw [hnil] at this
    cases this
  · intro c hc
    obtain ⟨d, hd, rfl⟩ := mem_printHex hc
    exact (hexValue_hexDigit d hd).2.2.2.1

/-- The columns of a row. -/
theorem splitWhitespace_row (row : Row) : splitWhitespace row.text =
    row.slot :: localField row.socket :: row.remote :: printHex 2 row.socket.state.toNat ::
      splitWhitespace row.more := by
  have htext : row.text = List.replicate row.pad ' ' ++
      (row.slot ++ ' ' :: (localField row.socket ++
      ' ' :: (row.remote ++ ' ' :: (printHex 2 row.socket.state.toNat ++ row.more)))) := by
    simp [Row.text, localField]
  have hblank : ∀ (rest : Text), ∀ c ∈ (' ' :: rest).head?, isWhitespace c = true := by
    intro rest c hc
    cases hc
    decide
  rw [htext, splitWhitespace_pad, splitWhitespace_column row.slot_column (hblank _),
    splitWhitespace_blank (by decide), splitWhitespace_column (column_localField _) (hblank _),
      splitWhitespace_blank (by decide),
    splitWhitespace_column row.remote_column (hblank _), splitWhitespace_blank (by decide),
    splitWhitespace_column (column_state _) row.more_apart]

/-- The state of a listening socket, and no other, is printed as `0A`. -/
theorem printHex_state (state : UInt8) :
    printHex 2 state.toNat = ['0', 'A'] ↔ state = tcpListen := by
  constructor
  · intro h
    have hread : fromHex 255 (printHex 2 state.toNat) = some state.toNat := by
      have hlt := state.toNat_lt
      exact fromHex_printHex (by decide) (by omega) (by omega)
    rw [h] at hread
    have hten : fromHex 255 ['0', 'A'] = some 10 := by decide
    rw [hten] at hread
    exact UInt8.toNat_inj.mp (Option.some.inj hread).symm
  · rintro rfl
    decide

/-- A row is read as its socket, if that listens. -/
theorem listeningSocket_row (row : Row) : listeningSocket row.text =
    if row.socket.state = tcpListen then
      some (unmapped row.socket.address, row.socket.port.toNat) else none := by
  unfold listeningSocket
  rw [splitWhitespace_row]
  dsimp only
  by_cases hstate : row.socket.state = tcpListen
  · have hcolon : ':' ∉ printAddress row.socket.address := by
      intro hmem
      obtain ⟨d, hd, hc⟩ := mem_printAddress hmem
      exact (hexValue_hexDigit d hd).2.2.1 hc.symm
    have hport : fromHex (2 ^ 16 - 1) (printHex 4 row.socket.port.toNat) =
        some row.socket.port.toNat := by
      have hlt := row.socket.port.toNat_lt
      exact fromHex_printHex (by decide) (by omega) (by omega)
    rw [if_pos hstate, if_neg (not_not.mpr ((printHex_state _).mpr hstate)), localField,
      splitOnce_append hcolon, Option.bind_eq_bind, Option.bind_some]
    dsimp only
    rw [parseProcAddress_print, Option.bind_eq_bind, Option.bind_some, hport]
    rfl
  · rw [if_neg hstate, if_pos (fun h => hstate ((printHex_state _).mp h))]

theorem listeningSocket_header (table : Table) : listeningSocket table.header = none := by
  have hstate := table.header_state
  unfold listeningSocket
  split
  · next slot localField remote state more hcolumns =>
      rw [hcolumns] at hstate
      rw [if_pos]
      rintro rfl
      exact hstate rfl
  · rfl

/-! ### Lines -/

theorem Column.not_mem {column : Text} (h : Column column) {c : Char}
    (hc : isWhitespace c = true) : c ∉ column := by
  intro hmem
  have hnot := h.2 c hmem
  rw [hc] at hnot
  cases hnot

/-- No white space but blanks stands in a row before what follows its state. -/
theorem Row.not_mem_text (row : Row) {c : Char} (hc : isWhitespace c = true) (hblank : c ≠ ' ')
    (hmore : c ∉ row.more) : c ∉ row.text := by
  have hslot := row.slot_column.not_mem hc
  have hlocal := (column_localField row.socket).not_mem hc
  have hremote := row.remote_column.not_mem hc
  have hstate := (column_state row.socket.state).not_mem hc
  have htext : row.text = List.replicate row.pad ' ' ++ row.slot ++ ' ' :: localField row.socket ++
      ' ' :: row.remote ++ ' ' :: printHex 2 row.socket.state.toNat ++ row.more := by
    simp [Row.text, localField]
  rw [htext]
  intro hmem
  simp only [List.mem_append, List.mem_cons, List.mem_replicate] at hmem
  tauto

/-- The lines of a table. -/
theorem lines_table (table : Table) :
    lines table.text = table.header :: table.rows.map Row.text := by
  apply lines_flatMap
  intro line hline
  rcases List.mem_cons.mp hline with rfl | hline
  · exact table.header_line
  · obtain ⟨row, -, rfl⟩ := List.mem_map.mp hline
    exact ⟨row.not_mem_text (by decide) (by decide) row.more_line.1,
      row.not_mem_text (by decide) (by decide) row.more_line.2⟩

/-! ### The ports -/

/-- What a socket is read as. -/
def Socket.listening (socket : Socket) : Option (IpAddr × ℕ) :=
  if socket.state = tcpListen then some (unmapped socket.address, socket.port.toNat) else none

/-- The listening sockets of a table are read, and nothing else is. -/
theorem filterMap_table (table : Table) :
    (lines table.text).filterMap listeningSocket = table.sockets.filterMap Socket.listening := by
  rw [lines_table, List.filterMap_cons, listeningSocket_header, Table.sockets, List.filterMap_map,
    List.filterMap_map]
  exact List.filterMap_congr fun row _ => listeningSocket_row row

theorem filterMap_tables (tables : List Table) :
    ((tables.map Table.text).flatMap lines).filterMap listeningSocket =
      (tables.flatMap Table.sockets).filterMap Socket.listening := by
  induction tables with
  | nil => rfl
  | cons table tables ih =>
      rw [List.map_cons, List.flatMap_cons, List.flatMap_cons, List.filterMap_append,
        List.filterMap_append, ih, filterMap_table]

/-- The test takes the first socket on the port apart from those that are left: some socket is on
it, and all of them are on loopback addresses. -/
theorem loopbackOnly_iff (listening : List (IpAddr × ℕ)) (port : ℕ) :
    loopbackOnly listening port = true ↔
    (∃ socket ∈ listening, socket.2 = port) ∧
      ∀ socket ∈ listening, socket.2 = port → socket.1.isLoopback = true := by
  have hmem : ∀ socket, socket ∈ listening.filter (fun socket => socket.2 = port) ↔
      socket ∈ listening ∧ socket.2 = port := by simp
  unfold loopbackOnly
  cases hports : listening.filter (fun socket => socket.2 = port) with
  | nil =>
      constructor
      · intro h
        cases h
      · rintro ⟨⟨socket, hsocket, hport⟩, -⟩
        have hin := (hmem socket).mpr ⟨hsocket, hport⟩
        rw [hports] at hin
        cases hin
  | cons first onThisPort =>
      rw [hports] at hmem
      rw [Bool.and_eq_true, List.all_eq_true]
      constructor
      · rintro ⟨hfirst, hrest⟩
        refine ⟨⟨first, (hmem first).mp (List.mem_cons_self ..)⟩, fun socket hsocket hport => ?_⟩
        rcases List.mem_cons.mp ((hmem socket).mpr ⟨hsocket, hport⟩) with rfl | hin
        · exact hfirst
        · exact hrest socket hin
      · rintro ⟨-, hall⟩
        refine ⟨?_, fun socket hin => ?_⟩
        · obtain ⟨hsocket, hport⟩ := (hmem first).mp (List.mem_cons_self ..)
          exact hall first hsocket hport
        · obtain ⟨hsocket, hport⟩ := (hmem socket).mp (List.mem_cons_of_mem _ hin)
          exact hall socket hsocket hport

theorem mem_listening {sockets : List Socket} {address : IpAddr} {port : ℕ} :
    (address, port) ∈ sockets.filterMap Socket.listening ↔
      ∃ socket ∈ sockets, socket.ListensOn port ∧ unmapped socket.address = address := by
  unfold Socket.listening Socket.ListensOn
  simp only [List.mem_filterMap, Option.ite_none_right_eq_some, Option.some.injEq, Prod.mk.injEq]
  constructor
  · rintro ⟨socket, hmem, hstate, haddress, hport⟩
    exact ⟨socket, hmem, ⟨hstate, hport⟩, haddress⟩
  · rintro ⟨socket, hmem, ⟨hstate, hport⟩, haddress⟩
    exact ⟨socket, hmem, hstate, haddress, hport⟩

/-- The ports found are those of the set that some socket listens on, in any of the tables, and that
no socket listens on but at a loopback address. -/
theorem loopback_only_ports (tables : List Table) (ports : Finset ℕ) (port : ℕ) :
    port ∈ loopbackOnlyPortsIn (tables.map Table.text) ports ↔
      port ∈ ports ∧ (∃ socket ∈ tables.flatMap Table.sockets, socket.ListensOn port) ∧
        ∀ socket ∈ tables.flatMap Table.sockets, socket.ListensOn port →
          (unmapped socket.address).isLoopback = true := by
  rw [loopbackOnlyPortsIn, Finset.mem_filter, filterMap_tables, loopbackOnly_iff]
  refine and_congr_right fun _ => and_congr ?_ ?_
  · constructor
    · rintro ⟨⟨address, _⟩, hmem, rfl⟩
      obtain ⟨socket, hsocket, hlistens, -⟩ := mem_listening.mp hmem
      exact ⟨socket, hsocket, hlistens⟩
    · rintro ⟨socket, hsocket, hlistens⟩
      exact ⟨(unmapped socket.address, port),
        mem_listening.mpr ⟨socket, hsocket, hlistens, rfl⟩, rfl⟩
  · constructor
    · intro h socket hsocket hlistens
      exact h (unmapped socket.address, port)
        (mem_listening.mpr ⟨socket, hsocket, hlistens, rfl⟩) rfl
    · rintro h ⟨address, _⟩ hmem rfl
      obtain ⟨socket, hsocket, hlistens, rfl⟩ := mem_listening.mp hmem
      exact h socket hsocket hlistens

/-- A server on `127.0.0.1:8080`. -/
def localServer : Row where
  socket := ⟨.v4 ⟨[127, 0, 0, 1], rfl⟩, 8080, tcpListen⟩
  pad := 3
  slot := "0:".toList
  remote := "00000000:0000".toList
  more := " 00000000:00000000 00:00000000 00000000  1000        0 31337 1".toList
  slot_column := ⟨by decide, by simp [isWhitespace]⟩
  remote_column := ⟨by decide, by simp [isWhitespace]⟩
  more_apart := by
    rintro c ⟨⟩
    decide
  more_line := by decide +kernel

/-- `/proc/net/tcp`, with the kernel's header. -/
def procNetTcp : Table where
  header :=
    "  sl  local_address rem_address   st tx_queue rx_queue tr tm->when retrnsmt   uid  timeout inode".toList
  rows := [localServer]
  header_line := by decide +kernel
  header_state := by decide +kernel

example : localServer.text =
    "   0: 0100007F:1F90 00000000:0000 0A 00000000:00000000 00:00000000 00000000  1000        0 31337 1".toList := by
  decide +kernel

theorem loopback_only_ports_local : 8080 ∈ loopbackOnlyPortsIn [procNetTcp.text] {8080, 9090} := by
  refine (loopback_only_ports [procNetTcp] {8080, 9090} 8080).mpr
    ⟨by decide, ⟨localServer.socket, List.mem_singleton_self _, rfl, rfl⟩, ?_⟩
  intro socket hsocket _
  cases List.mem_singleton.mp hsocket
  rfl

end Ratect.ListeningSockets
