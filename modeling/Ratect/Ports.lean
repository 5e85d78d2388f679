import Ratect.Loop
import Ratect.Strings

/-! # Ports

`PortRange` and `PortMapping` (`config.rs`): how both forms of a mapping are read, and the single
mappings it stands for.  Ports are `u16`; an addition that leaves them has no result. -/

namespace Ratect

/-- The greatest `u16`. -/
def u16Max : ℕ := 2 ^ 16 - 1

/-- `PortRange`. -/
structure PortRange where
  fromPort : ℕ
  toPort : ℕ
deriving DecidableEq

namespace PortRange

/-- `PortRange::parse`. -/
def parse (value : Text) : Except String PortRange :=
  let invalid :=
    s!"Port range '{String.ofList (printable value)}' is invalid. It must be in the form 'port' or " ++
    "'from-to' and each port must be a positive integer."
  let (fromStr, toStr) := (splitOnce '-' value).getD (value, value)
  match parseUnsigned u16Max fromStr, parseUnsigned u16Max toStr with
  | some fromPort, some toPort =>
      if fromPort = 0 then
        .error s!"Port range '{String.ofList (printable value)}' is invalid. Ports must be positive integers."
      else if toPort < fromPort then
        .error (s!"Port range '{String.ofList (printable value)}' is invalid. Port range limits must be given in " ++
          "ascending order.")
      else .ok ⟨fromPort, toPort⟩
  | _, _ => .error invalid

/-- `size`, a `u32`. -/
def size (range : PortRange) : ℕ := range.toPort - range.fromPort + 1

/-- `Display`. -/
def toText (range : PortRange) : Text :=
  if range.fromPort = range.toPort then display range.fromPort
  else display range.fromPort ++ ['-'] ++ display range.toPort

/-- A port or a range as a file gives it. -/
inductive Value where
  | string (value : Text)
  | integer (value : ℤ)

/-- `Deserialize`. -/
def deserialize : Value → Except String PortRange
  | .string value => parse value
  | .integer value => parse (toString value).toList

end PortRange

/-- `PortMapping`. -/
structure PortMapping where
  localRange : PortRange
  container : PortRange
  protocol : Text
deriving DecidableEq

namespace PortMapping

/-- `PortMapping::new`. -/
def new (localRange container : PortRange) (protocol : Text) : Except String PortMapping :=
  if localRange.size ≠ container.size then
    let ports (range : PortRange) : String :=
      if range.size = 1 then "1 port" else s!"{range.size} ports"
    .error (s!"Port mapping definition is invalid. The local port range has {ports localRange} and the container " ++
      s!"port range has {ports container}, but the ranges must be the same size.")
  else .ok ⟨localRange, container, protocol⟩

/-- `parse_string`. -/
def parseString (value : Text) : Except String PortMapping :=
  let invalid :=
    s!"Port mapping definition '{String.ofList (printable value)}' is invalid. It must be in the form " ++
    "'local:container', 'local:container/protocol', 'from-to:from-to' or 'from-to:from-to/protocol' and each port " ++
    "must be a positive integer."
  if value = [] then .error "Port mapping definition cannot be empty."
  else
    match splitOnce ':' value with
    | none => .error invalid
    | some (localText, rest) =>
      let (container, protocol) := (splitOnce '/' rest).getD (rest, "tcp".toList)
      if localText = [] ∨ container = [] ∨ protocol = [] then .error invalid
      else do
        let localRange ← PortRange.parse localText
        let container ← PortRange.parse container
        new localRange container protocol

/-- The object form. -/
def ofObject (localValue container : PortRange.Value) (protocol : Option Text) :
    Except String PortMapping := do
  let localRange ← PortRange.deserialize localValue
  let container ← PortRange.deserialize container
  new localRange container (protocol.getD "tcp".toList)

/-- Addition of `u16`s, where it does not overflow. -/
def u16Add (a b : ℕ) : Option ℕ := if a + b ≤ u16Max then some (a + b) else none

/-- `expand`: the ports of one `i`, which is a `u32` made a `u16`. -/
def expandAt (mapping : PortMapping) (i : ℕ) : Option (ℕ × ℕ × Text) := do
  let localPort ← u16Add mapping.localRange.fromPort (i % (u16Max + 1))
  let containerPort ← u16Add mapping.container.fromPort (i % (u16Max + 1))
  return (localPort, containerPort, mapping.protocol)

/-- `expand`. -/
def expand (mapping : PortMapping) : Option (List (ℕ × ℕ × Text)) :=
  (List.range mapping.localRange.size).mapM mapping.expandAt

end PortMapping

/-! ### Ranges -/

/-- What `parse` promises of a range. -/
structure PortRange.Valid (range : PortRange) : Prop where
  pos : 1 ≤ range.fromPort
  le : range.fromPort ≤ range.toPort
  max : range.toPort ≤ u16Max

theorem PortRange.parse_valid {value : Text} {range : PortRange}
    (h : PortRange.parse value = .ok range) : range.Valid := by
  rw [PortRange.parse] at h
  dsimp only at h
  split at h
  · next fromPort toPort hfrom hto =>
      split_ifs at h with hzero horder
      obtain rfl := Except.ok.inj h
      have hmax := (Option.filter_eq_some_iff.mp hto).2
      exact ⟨Nat.pos_of_ne_zero hzero, not_lt.mp horder, by simpa using hmax⟩
  · cases h

/-- A range is read back as it is displayed. -/
theorem PortRange.parse_toText {range : PortRange} (h : range.Valid) :
    PortRange.parse range.toText = .ok range := by
  have hdash : ∀ n, '-' ∉ display n := by
    intro n hn
    have := display_isDigit hn
    revert this
    decide
  have hfrom : parseUnsigned u16Max (display range.fromPort) = some range.fromPort :=
    parseUnsigned_display (h.le.trans h.max)
  have hto : parseUnsigned u16Max (display range.toPort) = some range.toPort :=
    parseUnsigned_display h.max
  have hpos := h.pos
  have hle := h.le
  rw [PortRange.toText]
  split_ifs with hsingle
  · rw [PortRange.parse, splitOnce_of_not_mem (hdash _)]
    dsimp only [Option.getD_none]
    rw [hfrom]
    dsimp only
    rw [if_neg (by omega), if_neg (by omega)]
    cases range
    simp_all
  · rw [PortRange.parse, List.append_assoc, List.singleton_append, splitOnce_append (hdash _)]
    dsimp only [Option.getD_some]
    rw [hfrom, hto]
    dsimp only
    rw [if_neg (by omega), if_neg (by omega)]

/-! ### Mappings -/

/-- What both forms of a mapping promise. -/
structure PortMapping.Valid (mapping : PortMapping) : Prop where
  localRange : mapping.localRange.Valid
  container : mapping.container.Valid
  size : mapping.localRange.size = mapping.container.size

theorem PortMapping.new_valid {localRange container : PortRange} {protocol : Text}
    {mapping : PortMapping} (hlocal : localRange.Valid) (hcontainer : container.Valid)
    (h : PortMapping.new localRange container protocol = .ok mapping) : mapping.Valid := by
  rw [PortMapping.new] at h
  split_ifs at h with hsize
  obtain rfl := Except.ok.inj h
  exact ⟨hlocal, hcontainer, not_ne_iff.mp hsize⟩

theorem PortMapping.parseString_valid {value : Text} {mapping : PortMapping}
    (h : PortMapping.parseString value = .ok mapping) :
    mapping.Valid := by
  rw [PortMapping.parseString] at h
  dsimp only at h
  split_ifs at h
  split at h
  · cases h
  · next localText rest _ =>
      split_ifs at h
      obtain ⟨localRange, hlocal, h⟩ := Except.bind_eq_ok.mp h
      obtain ⟨container, hcontainer, h⟩ := Except.bind_eq_ok.mp h
      exact PortMapping.new_valid (PortRange.parse_valid hlocal)
        (PortRange.parse_valid hcontainer) h

theorem PortRange.deserialize_valid {value : PortRange.Value} {range : PortRange}
    (h : PortRange.deserialize value = .ok range) : range.Valid := by
  cases value with
  | string value => exact PortRange.parse_valid h
  | integer value => exact PortRange.parse_valid h

theorem PortMapping.ofObject_valid {localValue container : PortRange.Value} {protocol : Option Text}
    {mapping : PortMapping}
    (h : PortMapping.ofObject localValue container protocol = .ok mapping) : mapping.Valid := by
  rw [PortMapping.ofObject] at h
  obtain ⟨localRange, hlocal, h⟩ := Except.bind_eq_ok.mp h
  obtain ⟨container, hcontainer, h⟩ := Except.bind_eq_ok.mp h
  exact PortMapping.new_valid (PortRange.deserialize_valid hlocal)
    (PortRange.deserialize_valid hcontainer) h

/-- No addition of `expand` overflows, since both ranges end at a port and are as long as each
other. -/
theorem PortMapping.expand_of_valid {mapping : PortMapping} (h : mapping.Valid) : mapping.expand =
    some ((List.range mapping.localRange.size).map fun i =>
      (mapping.localRange.fromPort + i, mapping.container.fromPort + i, mapping.protocol)) := by
  have hlocal := h.localRange.max
  have hcontainer := h.container.max
  have hlocalLe := h.localRange.le
  have hcontainerLe := h.container.le
  have hlocalPos := h.localRange.pos
  have hsize := h.size
  simp only [PortRange.size] at hsize
  refine Option.mapM_eq_some_map fun i hi => ?_
  simp only [List.mem_range, PortRange.size] at hi
  have hmod : i % (u16Max + 1) = i := Nat.mod_eq_of_lt (by omega)
  rw [expandAt, hmod, u16Add, u16Add, if_pos (by omega), if_pos (by omega)]
  rfl

/-- A range that is read is one of ports, and is displayed as it is read; a mapping that is read, in
either form, is expanded without overflow, into the ports of both ranges, in order and all of
them. -/
theorem port_ranges :
    (∀ value range, PortRange.parse value = .ok range →
      1 ≤ range.fromPort ∧ range.fromPort ≤ range.toPort ∧ range.toPort ≤ 65535 ∧
        PortRange.parse range.toText = .ok range) ∧
    ∀ mapping : PortMapping,
      ((∃ value, PortMapping.parseString value = .ok mapping) ∨
        ∃ localValue container protocol,
          PortMapping.ofObject localValue container protocol = .ok mapping) →
      ∃ triples, mapping.expand = some triples ∧
        triples = ((List.range mapping.localRange.size).map fun i =>
          (mapping.localRange.fromPort + i, mapping.container.fromPort + i, mapping.protocol)) ∧
        triples.map (·.1) =
          List.range' mapping.localRange.fromPort
            (mapping.localRange.toPort + 1 - mapping.localRange.fromPort) ∧
        triples.map (·.2.1) =
          List.range' mapping.container.fromPort
            (mapping.container.toPort + 1 - mapping.container.fromPort) := by
  constructor
  · intro value range h
    have hvalid := PortRange.parse_valid h
    exact ⟨hvalid.pos, hvalid.le, hvalid.max, PortRange.parse_toText hvalid⟩
  · intro mapping h
    have hvalid : mapping.Valid := by
      rcases h with ⟨value, h⟩ | ⟨localValue, container, protocol, h⟩
      · exact PortMapping.parseString_valid h
      · exact PortMapping.ofObject_valid h
    have hlocalLe := hvalid.localRange.le
    have hcontainerLe := hvalid.container.le
    have hsize := hvalid.size
    refine ⟨_, PortMapping.expand_of_valid hvalid, rfl, ?_, ?_⟩
    · rw [List.map_map, List.range'_eq_map_range, Nat.succ_sub hlocalLe]
      rfl
    · rw [List.map_map, List.range'_eq_map_range, Nat.succ_sub hcontainerLe, hsize]
      rfl

/-- Three ports onto three others. -/
theorem port_ranges_of_three :
    PortRange.parse (PortRange.toText ⟨8000, 8002⟩) = .ok ⟨8000, 8002⟩ ∧
      ∃ triples, PortMapping.expand ⟨⟨8000, 8002⟩, ⟨9000, 9002⟩, "tcp".toList⟩ = some triples ∧
        triples.map (·.2.1) = List.range' 9000 3 := by
  have hparse : PortRange.parse "8000-8002".toList = .ok ⟨8000, 8002⟩ := by decide +kernel
  have hmapping : PortMapping.parseString "8000-8002:9000-9002".toList =
      .ok ⟨⟨8000, 8002⟩, ⟨9000, 9002⟩, "tcp".toList⟩ := by decide +kernel
  obtain ⟨-, -, -, hround⟩ := port_ranges.1 _ _ hparse
  obtain ⟨triples, hexpand, -, -, hcontainer⟩ := port_ranges.2 _ (.inl ⟨_, hmapping⟩)
  exact ⟨hround, triples, hexpand, hcontainer⟩

end Ratect
