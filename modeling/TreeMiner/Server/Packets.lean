import TreeMiner.Lib.Source
import TreeMiner.Lib.Utf8
import TreeMiner.Server.Broker

/-!
# The packets of the MQTT broker (`broker.py`)

The codec functions, the loop of `_handle_connection`, and what it does with each
packet. A packet on the wire is a first byte, the length of the rest in base 128 and the
rest; `Frame.bytes` says so once, and every packet is read off whatever pieces it comes
in (`read_packet_bytes`).

Every packet the broker builds with `_encode_remaining_length` is such a frame. SUBACK is
built without it, so that its length stands in one byte and is wrong from 126 filters
on.

Left out are the log lines. `json.loads` can raise what `_handle_publish` does not catch
(too many digits, nesting that is too deep); for which payloads is a parameter.
-/

namespace TreeMiner.Mqtt

open Cxx Server Broker

/-! ## The codec -/

def PUBLISH : Nat := 3
def PUBACK : Nat := 4
def SUBSCRIBE : Nat := 8
def SUBACK : Nat := 9
def UNSUBSCRIBE : Nat := 10
def UNSUBACK : Nat := 11
def PINGREQ : Nat := 12
def PINGRESP : Nat := 13
def DISCONNECT : Nat := 14

/-- `_encode_remaining_length`. -/
def encodeRemainingLength (length : Nat) : Bytes :=
  let byte := length % 128
  if length / 128 > 0 then
    UInt8.ofNat (byte ||| 0x80) :: encodeRemainingLength (length / 128)
  else [UInt8.ofNat byte]

/-- The loop of `_decode_remaining_length`, with the bytes it has consumed. -/
def decodeLoop (value multiplier idx : Nat) : Bytes → Option (Nat × Nat)
  | [] => none
  | encoded_byte :: data =>
    let value := value + (encoded_byte &&& 0x7F).toNat * multiplier
    if encoded_byte &&& 0x80 = 0 then some (value, idx + 1)
    else decodeLoop value (multiplier * 128) (idx + 1) data

/-- `_decode_remaining_length`: the length and the bytes consumed. -/
def decodeRemainingLength (data : Bytes) (offset : Nat) : Option (Nat × Nat) :=
  decodeLoop 0 1 0 (data.drop offset)

/-- `struct.pack("!H", n)`. -/
def pack (n : Nat) : Option Bytes :=
  if n < 65536 then some [UInt8.ofNat (n / 256), UInt8.ofNat n] else none

/-- `struct.unpack("!H", data)[0]`. -/
def unpack : Bytes → Option Nat
  | [hi, lo] => some (hi.toNat * 256 + lo.toNat)
  | _ => none

/-- `data[i : j]`. -/
def slice (data : Bytes) (i j : Nat) : Bytes := (data.drop i).take (j - i)

/-- `bytes(ns)`. -/
def bytesOf (ns : List Nat) : Option Bytes :=
  if ns.all (· < 256) then some (ns.map UInt8.ofNat) else none

/-- `_decode_utf8_string`: the text and the offset behind it. -/
def decodeUtf8String (data : Bytes) (offset : Nat) : Option (Str × Nat) :=
  if offset + 2 > data.length then none
  else do
    let str_len ← unpack (slice data offset (offset + 2))
    let offset := offset + 2
    if offset + str_len > data.length then none
    else do
      let s ← Utf8.decode (slice data offset (offset + str_len))
      some (s, offset + str_len)

/-- `_encode_utf8_string`. -/
def encodeUtf8String (s : Str) : Option Bytes := do
  let encoded := Utf8.encode s
  let length ← pack encoded.length
  some (length ++ encoded)

/-- `_build_publish_packet`. -/
def buildPublishPacket (topic : Str) (payload : Bytes) (qos : Nat) : Option Bytes := do
  let topic_bytes ← encodeUtf8String topic
  let flags := if qos > 0 then qos <<< 1 else 0
  let packet_id ← if qos > 0 then pack 0 else some []
  let remaining := topic_bytes ++ packet_id ++ payload
  let first ← bytesOf [(PUBLISH <<< 4) ||| flags]
  some (first ++ encodeRemainingLength remaining.length ++ remaining)

/-! ## Reading a packet -/

/-- What the loop has of a packet before it looks at its type. -/
structure Frame where
  pkt_type : Nat
  flags : Nat
  body : Bytes
  deriving DecidableEq

/-- The loop that gathers the bytes of the remaining length; none if the connection
closes. -/
def remainingBytes (reader : Source) : Option (Bytes × Source) :=
  match _h : reader.read 1 with
  | ([], _) => none
  | (b :: _, reader') =>
    if b &&& 0x80 = 0 then some ([b], reader')
    else (remainingBytes reader').map fun r => (b :: r.1, r.2)
termination_by reader.rest.length
decreasing_by
  rw [(Source.read_cons _h).1, List.length_append, List.length_cons]
  omega

/-- The loop of `_read_exact`, with the data it has; none if the connection closes. -/
def readLoop (n : Nat) (data : Bytes) (reader : Source) : Option (Bytes × Source) :=
  if _hn : data.length < n then
    match _h : reader.read (n - data.length) with
    | ([], _) => none
    | (c :: chunk, reader') => readLoop n (data ++ c :: chunk) reader'
  else some (data, reader)
termination_by n - data.length
decreasing_by
  rw [List.length_append, List.length_cons]
  omega

/-- `_read_exact`. -/
def readExact (reader : Source) (n : Nat) : Option (Bytes × Source) := readLoop n [] reader

/-- How the loop's reading of a packet ends. -/
inductive Reading where
  | packet (frame : Frame) (reader : Source)
  /-- No first byte. -/
  | eof
  /-- A `ConnectionError` within a packet. -/
  | connectionError
  /-- The gathered length does not decode. -/
  | valueError

/-- One round of the loop, up to the packet's body. -/
def readPacket (reader : Source) : Reading :=
  match reader.read 1 with
  | ([], _) => .eof
  | (header :: _, reader) =>
    let pkt_type := (header.toNat >>> 4) &&& 0x0F
    let flags := header.toNat &&& 0x0F
    match remainingBytes reader with
    | none => .connectionError
    | some (remaining, reader) =>
      match decodeRemainingLength remaining 0 with
      | none => .valueError
      | some (remaining_len, _) =>
        if remaining_len > 0 then
          match readExact reader remaining_len with
          | none => .connectionError
          | some (body, reader) => .packet ⟨pkt_type, flags, body⟩ reader
        else .packet ⟨pkt_type, flags, []⟩ reader

/-! ## Handling a packet -/

/-- What `_handle_publish` has decoded. -/
structure Published where
  topic : Str
  payload_bytes : Bytes
  qos : Nat
  packet_id : Option Nat
  deriving DecidableEq

/-- The first part of `_handle_publish`. -/
def decodePublish (flags : Nat) (body : Bytes) : Option Published := do
  let (topic, offset) ← decodeUtf8String body 0
  let qos := (flags >>> 1) &&& 0x03
  if qos > 0 then
    let packet_id ← unpack (slice body offset (offset + 2))
    some ⟨topic, body.drop (offset + 2), qos, some packet_id⟩
  else some ⟨topic, body.drop offset, qos, none⟩

/-- PUBACK, for QoS 1. -/
def Published.puback (msg : Published) : Option Bytes := do
  let packet_id ← msg.packet_id
  if msg.qos = 1 then
    let first ← bytesOf [PUBACK <<< 4, 2]
    let id ← pack packet_id
    some (first ++ id)
  else none

/-- A text takes at least the two bytes of its length. -/
theorem decode_utf8_string_offset {data : Bytes} {offset next : Nat} {s : Str}
    (h : decodeUtf8String data offset = some (s, next)) : offset + 2 ≤ next := by
  unfold decodeUtf8String at h
  split at h
  · cases h
  · simp only [Option.bind_eq_bind, Option.bind_eq_some_iff] at h
    obtain ⟨str_len, -, h⟩ := h
    split at h
    · cases h
    · simp only [Option.bind_eq_some_iff, Option.some.injEq, Prod.mk.injEq] at h
      obtain ⟨-, -, -, rfl⟩ := h
      omega

/-- The loop of `_handle_subscribe`: the filters it has added, and unless it raises the
return codes. -/
def subscribeLoop (body : Bytes) (offset : Nat) (granted : List Nat) :
    List Str × Option (List Nat) :=
  if offset < body.length then
    match _h : decodeUtf8String body offset with
    | none => ([], none)
    | some (topic_filter, offset) =>
      match body[offset]? with
      | none => ([], none)
      | some requested_qos =>
        let r := subscribeLoop body (offset + 1) (granted ++ [min requested_qos.toNat 1])
        (topic_filter :: r.1, r.2)
  else ([], some granted)
termination_by body.length - offset
decreasing_by
  have := decode_utf8_string_offset _h
  omega

/-- SUBACK. -/
def suback (packet_id : Nat) (granted : List Nat) : Option Bytes := do
  let first ← bytesOf [SUBACK <<< 4, 2 + granted.length]
  let id ← pack packet_id
  let codes ← bytesOf granted
  some (first ++ id ++ codes)

/-- `_handle_subscribe`: the filters added, and what is written unless it raises. -/
def handleSubscribe (body : Bytes) : List Str × Option Bytes :=
  match unpack (slice body 0 2) with
  | none => ([], none)
  | some packet_id =>
    let r := subscribeLoop body 2 []
    (r.1, r.2.bind (suback packet_id))

/-- The loop of `_handle_unsubscribe`: the filters discarded, and whether it got to the
end. -/
def unsubscribeLoop (body : Bytes) (offset : Nat) : List Str × Bool :=
  if offset < body.length then
    match _h : decodeUtf8String body offset with
    | none => ([], false)
    | some (topic_filter, offset) =>
      let r := unsubscribeLoop body offset
      (topic_filter :: r.1, r.2)
  else ([], true)
termination_by body.length - offset
decreasing_by
  have := decode_utf8_string_offset _h
  omega

/-- `_handle_unsubscribe`. -/
def handleUnsubscribe (body : Bytes) : List Str × Option Bytes :=
  match unpack (slice body 0 2) with
  | none => ([], none)
  | some packet_id =>
    let r := unsubscribeLoop body 2
    (r.1, if r.2 then do
      let first ← bytesOf [UNSUBACK <<< 4, 2]
      let id ← pack packet_id
      some (first ++ id)
    else none)

/-- What has become of a packet. -/
inductive Handled where
  /-- Answered for QoS 1, and routed unless `json.loads` has raised. -/
  | publish (msg : Published) (answer : Option Bytes) (routed : Bool)
  /-- The filters added, and the answer unless it raised. -/
  | subscribe (filters : List Str) (answer : Option Bytes)
  | unsubscribe (filters : List Str) (answer : Option Bytes)
  | pingresp (answer : Option Bytes)
  | disconnect
  | ignored
  | raised

section Loop

-- The payloads on which `json.loads` raises what is not caught.
variable (uncaught : Bytes → Bool)

/-- The second half of a round of the loop. -/
def handle (frame : Frame) : Handled :=
  if frame.pkt_type = PUBLISH then
    match decodePublish frame.flags frame.body with
    | none => .raised
    | some msg => .publish msg msg.puback (!uncaught msg.payload_bytes)
  else if frame.pkt_type = SUBSCRIBE then
    let r := handleSubscribe frame.body
    .subscribe r.1 r.2
  else if frame.pkt_type = UNSUBSCRIBE then
    let r := handleUnsubscribe frame.body
    .unsubscribe r.1 r.2
  else if frame.pkt_type = PINGREQ then .pingresp (bytesOf [PINGRESP <<< 4, 0])
  else if frame.pkt_type = DISCONNECT then .disconnect
  else .ignored

end Loop

section Codec

variable {n value multiplier idx offset : Nat} {s : Str} {data pre text rest : Bytes}

/-- The bytes of a length carry seven bits and say whether another follows. -/
theorem seven_bits : ∀ byte < 128,
    ((UInt8.ofNat (byte ||| 0x80) &&& 0x7F).toNat = byte ∧
      UInt8.ofNat (byte ||| 0x80) &&& 0x80 ≠ 0) ∧
    ((UInt8.ofNat byte &&& 0x7F).toNat = byte ∧ UInt8.ofNat byte &&& 0x80 = 0) := by
  decide

/-- A byte with its top bit set adds its seven bits and goes on to the next byte. -/
theorem decodeLoop_more {b : UInt8} (hb : b &&& 0x80 ≠ 0) :
    decodeLoop value multiplier idx (b :: data) =
      decodeLoop (value + (b &&& 0x7F).toNat * multiplier) (multiplier * 128) (idx + 1) data :=
  if_neg hb

/-- A byte with its top bit clear adds its seven bits and ends the number. -/
theorem decodeLoop_last {b : UInt8} (hb : b &&& 0x80 = 0) :
    decodeLoop value multiplier idx (b :: data) =
      some (value + (b &&& 0x7F).toNat * multiplier, idx + 1) :=
  if_pos hb

/-- A length is one byte, or one that announces more and the length of what is left. -/
theorem encode_remaining_length_eq : encodeRemainingLength n =
    if n / 128 > 0 then UInt8.ofNat (n % 128 ||| 0x80) :: encodeRemainingLength (n / 128)
    else [UInt8.ofNat (n % 128)] := by
  rw [encodeRemainingLength]

/-- A length decodes from its bytes, whatever follows them. -/
theorem decodeLoop_encode (n value multiplier idx : Nat) (rest : Bytes) :
    decodeLoop value multiplier idx (encodeRemainingLength n ++ rest) =
      some (value + n * multiplier, idx + (encodeRemainingLength n).length) := by
  induction n using Nat.strong_induction_on generalizing value multiplier idx with
  | _ n ih =>
    obtain ⟨⟨hmore, hhigh⟩, hlast, hlow⟩ := seven_bits (n % 128) (Nat.mod_lt _ (by omega))
    rw [encode_remaining_length_eq]
    by_cases hn : n / 128 > 0
    · have hdiv : n = n % 128 + 128 * (n / 128) := (Nat.mod_add_div n 128).symm
      have hval : n % 128 * multiplier + n / 128 * (multiplier * 128) = n * multiplier := by
        calc n % 128 * multiplier + n / 128 * (multiplier * 128)
            = (n % 128 + 128 * (n / 128)) * multiplier := by
              rw [Nat.add_mul, Nat.mul_comm 128, Nat.mul_assoc, Nat.mul_comm 128]
          _ = n * multiplier := by rw [← hdiv]
      rw [if_pos hn, List.cons_append, decodeLoop_more hhigh, hmore, ih (n / 128) (by omega),
        Nat.add_assoc, hval, List.length_cons]
      congr 2
      omega
    · have hmod : n % 128 = n := Nat.mod_eq_of_lt (by omega)
      rw [if_neg hn, List.singleton_append, decodeLoop_last hlow, hlast, hmod]
      rfl

/-- The remaining length is read back as it was written, with the number of bytes it took. -/
theorem decode_encode_remaining_length (n : Nat) :
    decodeRemainingLength (encodeRemainingLength n) 0 =
      some (n, (encodeRemainingLength n).length) := by
  have h := decodeLoop_encode n 0 1 0 []
  rw [List.append_nil] at h
  rw [decodeRemainingLength, List.drop_zero, h]
  simp

/-- The two bytes of a number. -/
def twoBytes (n : Nat) : Bytes := [UInt8.ofNat (n / 256), UInt8.ofNat n]

/-- A number below 65536 fits the two bytes of `struct.pack`. -/
theorem pack_eq (hn : n < 65536) : pack n = some (twoBytes n) := if_pos hn

/-- And is read back from them. -/
theorem unpack_twoBytes (hn : n < 65536) : unpack (twoBytes n) = some n := by
  have hhi : (UInt8.ofNat (n / 256)).toNat = n / 256 :=
    UInt8.toNat_ofNat_of_lt' (show n / 256 < 256 by omega)
  have hlo : (UInt8.ofNat n).toNat = n % 256 := UInt8.toNat_ofNat'
  show some ((UInt8.ofNat (n / 256)).toNat * 256 + (UInt8.ofNat n).toNat) = some n
  rw [hhi, hlo]
  congr 1
  omega

/-- A part of a string between two others. -/
theorem slice_append (pre text rest : Bytes) :
    slice (pre ++ (text ++ rest)) pre.length (pre.length + text.length) = text := by
  unfold slice
  rw [List.drop_left, Nat.add_sub_cancel_left, List.take_left]

/-- What a text looks like in a packet. -/
def wire (s : Str) : Bytes := twoBytes (Utf8.encode s).length ++ Utf8.encode s

/-- A string takes two bytes more on the wire than in UTF-8. -/
theorem wire_length : (wire s).length = 2 + (Utf8.encode s).length := List.length_append

/-- A string of at most 65535 bytes is encoded, with its length in front. -/
theorem encode_utf8_string_eq (hs : (Utf8.encode s).length ≤ 65535) :
    encodeUtf8String s = some (wire s) := by
  unfold encodeUtf8String
  simp only
  rw [pack_eq (by omega)]
  rfl

/-- A text decodes wherever it stands. -/
theorem decode_utf8_string_wire (hs : (Utf8.encode s).length ≤ 65535) (pre rest : Bytes) :
    decodeUtf8String (pre ++ (wire s ++ rest)) pre.length =
      some (s, pre.length + (wire s).length) := by
  have hlen : slice (pre ++ (wire s ++ rest)) pre.length (pre.length + 2) =
      twoBytes (Utf8.encode s).length := by
    unfold wire
    rw [List.append_assoc]
    exact slice_append pre (twoBytes (Utf8.encode s).length) (Utf8.encode s ++ rest)
  have htext : slice (pre ++ (wire s ++ rest)) (pre.length + 2)
      (pre.length + 2 + (Utf8.encode s).length) = Utf8.encode s := by
    have h := slice_append (pre ++ twoBytes (Utf8.encode s).length) (Utf8.encode s) rest
    rw [List.length_append] at h
    unfold wire
    rw [List.append_assoc, ← List.append_assoc pre]
    exact h
  have htotal : (pre ++ (wire s ++ rest)).length =
      pre.length + 2 + (Utf8.encode s).length + rest.length := by
    rw [List.length_append, List.length_append, wire_length]
    omega
  unfold decodeUtf8String
  rw [if_neg (by omega), hlen, unpack_twoBytes (by omega), Option.bind_eq_bind, Option.bind_some]
  simp only
  rw [if_neg (by omega), htext, Utf8.decode_encode, wire_length]
  simp only [Option.bind_eq_bind, Option.bind_some, Nat.add_assoc]

end Codec

/-! ## A packet is read off whatever it comes in -/

section Reading

variable {reader : Source} {data rest : Bytes} {n : Nat}

/-- The reader takes the bytes of the length one by one, up to the first with its top bit clear. -/
theorem remaining_bytes_step {b : UInt8} {tail : Bytes} (h : reader.rest = b :: tail) :
    ∃ reader', reader'.rest = tail ∧ remainingBytes reader =
      if b &&& 0x80 = 0 then some ([b], reader')
      else (remainingBytes reader').map fun r => (b :: r.1, r.2) := by
  obtain ⟨reader', hread, hrest⟩ := Source.read_one h
  refine ⟨reader', hrest, ?_⟩
  rw [remainingBytes]
  split
  next heq => rw [hread] at heq; cases heq
  next heq =>
    rw [hread] at heq
    cases heq
    rfl

/-- The bytes of a length are gathered, and nothing behind them. -/
theorem remaining_bytes_encode (n : Nat) :
    ∀ {reader : Source}, reader.rest = encodeRemainingLength n ++ rest →
      ∃ reader', remainingBytes reader = some (encodeRemainingLength n, reader') ∧
        reader'.rest = rest := by
  induction n using Nat.strong_induction_on with
  | _ n ih =>
    intro reader hreader
    obtain ⟨⟨-, hhigh⟩, -, hlow⟩ := seven_bits (n % 128) (Nat.mod_lt _ (by omega))
    rw [encode_remaining_length_eq] at hreader ⊢
    by_cases hn : n / 128 > 0
    · rw [if_pos hn, List.cons_append] at hreader
      obtain ⟨reader', hrest', hstep⟩ := remaining_bytes_step hreader
      obtain ⟨reader'', hrec, hrest''⟩ := ih (n / 128) (by omega) hrest'
      refine ⟨reader'', ?_, hrest''⟩
      rw [hstep, if_neg hhigh, hrec, if_pos hn]
      rfl
    · rw [if_neg hn, List.singleton_append] at hreader
      obtain ⟨reader', hrest', hstep⟩ := remaining_bytes_step hreader
      refine ⟨reader', ?_, hrest'⟩
      rw [hstep, if_pos hlow, if_neg hn]

/-- The loop of `_read_exact` goes on until it has as many bytes as it is to read. -/
theorem readLoop_eq (k : Nat) : ∀ {data : Bytes} {reader : Source}, n - data.length = k →
    data.length ≤ n → n ≤ (data ++ reader.rest).length →
      ∃ reader', readLoop n data reader = some ((data ++ reader.rest).take n, reader') ∧
        reader'.rest = (data ++ reader.rest).drop n := by
  induction k using Nat.strong_induction_on with
  | _ k ih =>
    intro data reader hk hdata hn
    rw [readLoop]
    by_cases hlt : data.length < n
    · rw [dif_pos hlt]
      split
      next heq =>
        -- more is to be read, so the stream is not at its end
        have hnil : reader.rest = [] :=
          (Source.read_eq_nil (by omega)).mp (congrArg Prod.fst heq)
        rw [hnil, List.append_nil] at hn
        omega
      next c chunk reader' heq =>
        obtain ⟨hrest, hchunk⟩ := Source.read_cons heq
        have happ : data ++ reader.rest = data ++ c :: chunk ++ reader'.rest := by
          rw [hrest, List.append_assoc]
        have hlen : (data ++ c :: chunk).length = data.length + (chunk.length + 1) := by
          rw [List.length_append, List.length_cons]
        rw [happ] at hn ⊢
        exact ih (n - (data ++ c :: chunk).length) (by omega) rfl (by omega) hn
    · have heq : n = data.length := by omega
      rw [dif_neg hlt]
      refine ⟨reader, ?_, ?_⟩
      · rw [heq, List.take_left]
      · rw [heq, List.drop_left]

/-- Reading as many bytes as were written gives these and leaves what came behind them. -/
theorem read_exact_append (h : reader.rest = data ++ rest) :
    ∃ reader', readExact reader data.length = some (data, reader') ∧ reader'.rest = rest := by
  have hlen : data.length ≤ ([] ++ reader.rest).length := by
    rw [List.nil_append, h, List.length_append]
    omega
  obtain ⟨reader', hread, hrest⟩ := readLoop_eq data.length rfl (Nat.zero_le _) hlen
  rw [List.nil_append, h] at hread hrest
  rw [List.take_left] at hread
  rw [List.drop_left] at hrest
  exact ⟨reader', hread, hrest⟩

/-- The bytes of a packet. -/
def Frame.bytes (f : Frame) : Bytes :=
  UInt8.ofNat ((f.pkt_type <<< 4) ||| f.flags) :: (encodeRemainingLength f.body.length ++ f.body)

/-- The packet type and the flags come back out of the first byte. -/
theorem header_bits : ∀ t < 16, ∀ flags < 16,
    ((UInt8.ofNat ((t <<< 4) ||| flags)).toNat >>> 4) &&& 0x0F = t ∧
    (UInt8.ofNat ((t <<< 4) ||| flags)).toNat &&& 0x0F = flags := by
  decide

/-- However the bytes arrive, the loop reads the packet and nothing behind it. -/
theorem read_packet_bytes {f : Frame} (ht : f.pkt_type < 16) (hf : f.flags < 16)
    (h : reader.rest = f.bytes ++ rest) :
    ∃ reader', readPacket reader = .packet f reader' ∧ reader'.rest = rest := by
  obtain ⟨htype, hflags⟩ := header_bits f.pkt_type ht f.flags hf
  rw [Frame.bytes, List.cons_append, List.append_assoc] at h
  obtain ⟨reader₁, hread₁, hrest₁⟩ := Source.read_one h
  obtain ⟨reader₂, hread₂, hrest₂⟩ := remaining_bytes_encode f.body.length hrest₁
  unfold readPacket
  rw [hread₁]
  simp only
  rw [hread₂, htype, hflags]
  simp only
  rw [decode_encode_remaining_length]
  simp only
  by_cases hbody : f.body.length > 0
  · obtain ⟨reader₃, hread₃, hrest₃⟩ := read_exact_append hrest₂
    rw [if_pos hbody, hread₃]
    exact ⟨reader₃, rfl, hrest₃⟩
  · have hnil : f.body = [] := List.eq_nil_of_length_eq_zero (by omega)
    rw [if_neg hbody, ← hnil]
    rw [hnil, List.nil_append] at hrest₂
    exact ⟨reader₂, rfl, hrest₂⟩

end Reading

/-! ## PUBLISH -/

/-- A message whose topic fits, for the QoS the broker knows. -/
structure Message where
  topic : Str
  payload : Bytes
  qos : Nat
  topic_fits : (Utf8.encode topic).length ≤ 65535
  qos_le : qos ≤ 1

namespace Message

/-- The packet the broker builds for it, with the packet id 0. -/
def frame (m : Message) : Frame where
  pkt_type := PUBLISH
  flags := m.qos <<< 1
  body := wire m.topic ++ ((if m.qos > 0 then twoBytes 0 else []) ++ m.payload)

/-- What is decoded from it. -/
def published (m : Message) : Published where
  topic := m.topic
  payload_bytes := m.payload
  qos := m.qos
  packet_id := if m.qos > 0 then some 0 else none

variable (m : Message)

/-- A message that is published has quality of service 0 or 1. -/
theorem qos_cases : m.qos = 0 ∨ m.qos = 1 := by
  have h := m.qos_le
  omega

/-- The broker builds exactly this frame for the message. -/
theorem build : buildPublishPacket m.topic m.payload m.qos = some m.frame.bytes := by
  unfold buildPublishPacket
  rw [encode_utf8_string_eq m.topic_fits]
  unfold Frame.bytes frame
  rcases m.qos_cases with hq | hq
  · simp [hq, bytesOf, PUBLISH]
  · simp [hq, bytesOf, PUBLISH, pack_eq]

/-- The body of the frame is decoded to the message it was built from. -/
theorem decode : decodePublish m.frame.flags m.frame.body = some m.published := by
  have htopic := decode_utf8_string_wire m.topic_fits []
    ((if m.qos > 0 then twoBytes 0 else []) ++ m.payload)
  rw [List.nil_append, List.length_nil, Nat.zero_add] at htopic
  unfold decodePublish frame published
  simp only
  rw [htopic, Option.bind_eq_bind, Option.bind_some]
  simp only
  rcases m.qos_cases with hq | hq
  · simp [hq]
  · have hid := slice_append (wire m.topic) (twoBytes 0) m.payload
    have hpay : (wire m.topic ++ (twoBytes 0 ++ m.payload)).drop ((wire m.topic).length + 2) =
        m.payload := by
      rw [← List.append_assoc]
      exact List.drop_left' List.length_append
    simp only [hq]
    simp [show slice (wire m.topic ++ (twoBytes 0 ++ m.payload)) (wire m.topic).length
      ((wire m.topic).length + 2) = twoBytes 0 from hid, hpay, unpack_twoBytes]

end Message

/-- The bytes are one SUBACK packet for the id, with these return codes. -/
def IsSuback (answer : Bytes) (packet_id : Nat) (codes : List Nat) : Prop :=
  ∃ length consumed, answer.head? = some (UInt8.ofNat (SUBACK <<< 4)) ∧
    decodeRemainingLength answer 1 = some (length, consumed) ∧
    answer.length = 1 + consumed + length ∧
    ∃ id cs, pack packet_id = some id ∧ bytesOf codes = some cs ∧
      answer.drop (1 + consumed) = id ++ cs

/-- A SUBSCRIBE packet: an id, and filters with the QoS asked for. -/
structure Subscription where
  packet_id : Nat
  filters : List (Str × Nat)
  id_lt : packet_id < 65536
  fits : ∀ x ∈ filters, (Utf8.encode x.1).length ≤ 65535 ∧ x.2 ≤ 2

namespace Subscription

/-- A filter in the packet. -/
def entry (x : Str × Nat) : Bytes := wire x.1 ++ [UInt8.ofNat x.2]

def frame (s : Subscription) : Frame where
  pkt_type := SUBSCRIBE
  flags := 2
  body := twoBytes s.packet_id ++ s.filters.flatMap entry

/-- The QoS granted to each filter. -/
def codes (s : Subscription) : List Nat := s.filters.map fun x => min x.2 1

end Subscription

/-- The loop of `_handle_subscribe` takes the filters one by one. -/
theorem subscribeLoop_entries {filters : List (Str × Nat)}
    (hfits : ∀ x ∈ filters, (Utf8.encode x.1).length ≤ 65535 ∧ x.2 ≤ 2) :
    ∀ (pre : Bytes) (granted : List Nat),
      subscribeLoop (pre ++ filters.flatMap Subscription.entry) pre.length granted =
        (filters.map Prod.fst, some (granted ++ filters.map fun x => min x.2 1)) := by
  -- the loop reads entry by entry; what it has read is the prefix `pre`
  induction filters with
  | nil =>
    intro pre granted
    rw [subscribeLoop, if_neg (by simp)]
    simp
  | cons x filters ih =>
    intro pre granted
    obtain ⟨hlen, hqos⟩ := hfits x List.mem_cons_self
    have hbody : pre ++ (x :: filters).flatMap Subscription.entry =
        pre ++ (wire x.1 ++ (UInt8.ofNat x.2 :: filters.flatMap Subscription.entry)) := by
      rw [List.flatMap_cons, Subscription.entry, List.append_assoc, List.singleton_append]
    have hdecode := decode_utf8_string_wire hlen pre
      (UInt8.ofNat x.2 :: filters.flatMap Subscription.entry)
    have hqos' : (UInt8.ofNat x.2).toNat = x.2 :=
      UInt8.toNat_ofNat_of_lt' (show x.2 < 256 by omega)
    have hnext : (pre ++ (wire x.1 ++ (UInt8.ofNat x.2 ::
        filters.flatMap Subscription.entry)))[pre.length + (wire x.1).length]? =
          some (UInt8.ofNat x.2) := by
      rw [← List.append_assoc, List.getElem?_append_right (by rw [List.length_append]),
        List.length_append, Nat.sub_self]
      rfl
    have hpre : pre ++ (wire x.1 ++ (UInt8.ofNat x.2 :: filters.flatMap Subscription.entry)) =
        (pre ++ (wire x.1 ++ [UInt8.ofNat x.2])) ++ filters.flatMap Subscription.entry := by
      simp
    rw [hbody, subscribeLoop,
      if_pos (by rw [List.length_append, List.length_append, wire_length]; omega)]
    split
    next heq => rw [hdecode] at heq; cases heq
    next topic_filter offset heq =>
      rw [hdecode, Option.some.injEq, Prod.mk.injEq] at heq
      obtain ⟨rfl, rfl⟩ := heq
      rw [hnext]
      simp only
      have hrec := ih (fun y hy => hfits y (List.mem_cons_of_mem _ hy))
        (pre ++ (wire x.1 ++ [UInt8.ofNat x.2])) (granted ++ [min x.2 1])
      have hoff : (pre ++ (wire x.1 ++ [UInt8.ofNat x.2])).length =
          pre.length + (wire x.1).length + 1 := by
        simp [Nat.add_assoc]
      rw [hoff, ← hpre] at hrec
      rw [hqos', hrec, List.map_cons, List.map_cons, List.append_assoc, List.singleton_append]

/-- What a SUBSCRIBE packet comes to. -/
theorem handle_subscribe_frame (s : Subscription) :
    handleSubscribe s.frame.body = (s.filters.map Prod.fst, suback s.packet_id s.codes) := by
  have hid : slice s.frame.body 0 2 = twoBytes s.packet_id :=
    slice_append [] (twoBytes s.packet_id) (s.filters.flatMap Subscription.entry)
  have hloop := subscribeLoop_entries s.fits (twoBytes s.packet_id) []
  unfold handleSubscribe
  rw [hid, unpack_twoBytes s.id_lt]
  simp only
  rw [show subscribeLoop s.frame.body 2 [] = _ from hloop]
  rfl

/-- Numbers below 256 are accepted as bytes. -/
theorem bytesOf_eq {ns : List Nat} (h : ∀ n ∈ ns, n < 256) :
    bytesOf ns = some (ns.map UInt8.ofNat) :=
  if_pos (List.all_eq_true.mpr fun n hn => decide_eq_true (h n hn))

/-- SUBACK as the broker builds it: its length goes into one byte or `bytes` raises. -/
theorem suback_eq {packet_id : Nat} {codes : List Nat} (hid : packet_id < 65536)
    (hcodes : ∀ n ∈ codes, n < 256) : suback packet_id codes =
      if codes.length < 254 then
        some (UInt8.ofNat (SUBACK <<< 4) :: UInt8.ofNat (2 + codes.length) ::
          (twoBytes packet_id ++ codes.map UInt8.ofNat))
      else none := by
  unfold suback
  rw [pack_eq hid, bytesOf_eq hcodes]
  by_cases hlen : codes.length < 254
  · rw [if_pos hlen,
      bytesOf_eq (by intro n hn; simp at hn; rcases hn with rfl | rfl <;> [decide; omega])]
    rfl
  · rw [if_neg hlen]
    have hnone : bytesOf [SUBACK <<< 4, 2 + codes.length] = none := by
      refine if_neg ?_
      simp
      omega
    rw [hnone]
    rfl

/-- A length ends no later than at the first byte that announces no other, and its value
starts with the first byte. -/
theorem decodeLoop_bounds {b : UInt8} (hb : b &&& 0x80 = 0) {post : Bytes} :
    ∀ {pre : Bytes} {value multiplier idx v c : Nat},
      decodeLoop value multiplier idx (pre ++ b :: post) = some (v, c) →
        idx < c ∧ c ≤ idx + pre.length + 1 ∧ ∃ q, v = value + multiplier * q
  | [], value, multiplier, idx, v, c, h => by
    rw [List.nil_append, decodeLoop_last hb] at h
    cases h
    exact ⟨Nat.lt_succ_self _, Nat.le_refl _, _, by rw [Nat.mul_comm]⟩
  | a :: pre, value, multiplier, idx, v, c, h => by
    rw [List.cons_append] at h
    by_cases ha : a &&& 0x80 = 0
    · rw [decodeLoop_last ha] at h
      cases h
      exact ⟨Nat.lt_succ_self _, by rw [List.length_cons]; omega, _, by rw [Nat.mul_comm]⟩
    · rw [decodeLoop_more ha] at h
      obtain ⟨hlt, hle, q, hq⟩ := decodeLoop_bounds hb h
      refine ⟨by omega, by rw [List.length_cons]; omega, (a &&& 0x7F).toNat + 128 * q, ?_⟩
      rw [hq, Nat.mul_add, Nat.mul_assoc, Nat.mul_comm multiplier (UInt8.toNat _), Nat.add_assoc]

/-- A length byte from 128 on stands for 128 less, and announces another. -/
theorem second_byte : ∀ k < 128, (UInt8.ofNat (128 + k) &&& 0x7F).toNat = k ∧
    UInt8.ofNat (128 + k) &&& 0x80 ≠ 0 := by
  decide

/-- The length byte says how much follows up to 125 return codes, and never beyond. -/
theorem suback_wellFormed {packet_id : Nat} {codes : List Nat} (hid : packet_id < 65536)
    (hcodes : ∀ n ∈ codes, n ≤ 1) :
    (∃ answer, suback packet_id codes = some answer ∧ IsSuback answer packet_id codes) ↔
      codes.length ≤ 125 := by
  have hbyte : ∀ n ∈ codes, n < 256 := fun n hn => by have := hcodes n hn; omega
  rw [suback_eq hid hbyte]
  constructor
  · rintro ⟨answer, hanswer, length, consumed, -, hdecode, hlength, -⟩
    by_contra hlen
    by_cases hlt : codes.length < 254
    · rw [if_pos hlt] at hanswer
      cases hanswer
      -- the length byte announces another one, and the first return code does not
      obtain ⟨code, codes', rfl⟩ : ∃ code codes', codes = code :: codes' :=
        List.exists_cons_of_length_pos (by omega)
      have hcode : code ≤ 1 := hcodes code List.mem_cons_self
      have hlow : UInt8.ofNat code &&& 0x80 = 0 := (seven_bits code (by omega)).2.2
      obtain ⟨k, hk⟩ : ∃ k, 2 + (code :: codes').length = 128 + k :=
        Nat.exists_eq_add_of_le (by omega)
      obtain ⟨hvalue, hhigh⟩ := second_byte k (by omega)
      have hanswer : (twoBytes packet_id ++ (code :: codes').map UInt8.ofNat).length = 128 + k := by
        rw [List.length_append, List.length_map]
        exact hk
      rw [hk, List.length_cons, List.length_cons, hanswer] at hlength
      rw [hk, decodeRemainingLength, List.drop_succ_cons, List.drop_zero, decodeLoop_more hhigh,
        hvalue, List.map_cons] at hdecode
      obtain ⟨hlt, hle, q, hq⟩ := decodeLoop_bounds hlow hdecode
      rw [show (twoBytes packet_id).length = 2 from rfl] at hle
      omega
    · rw [if_neg hlt] at hanswer
      cases hanswer
  · intro hlen
    refine ⟨_, if_pos (by omega), 2 + codes.length, 1, rfl, ?_, ?_, twoBytes packet_id,
      codes.map UInt8.ofNat, pack_eq hid, bytesOf_eq hbyte, rfl⟩
    · obtain ⟨-, hlast, hlow⟩ := seven_bits (2 + codes.length) (by omega)
      rw [decodeRemainingLength, List.drop_succ_cons, List.drop_zero, decodeLoop_last hlow, hlast]
      simp
    · simp [twoBytes]
      omega

/-- The answer to a SUBSCRIBE packet is a SUBACK with one return code for each filter
exactly up to 125 filters: the length is not written by `_encode_remaining_length`. -/
theorem suback_iff (uncaught : Bytes → Bool) (s : Subscription) (after : Bytes)
    (arrived : Nat → Nat) :
    ∃ reader answer, readPacket ⟨s.frame.bytes ++ after, arrived⟩ = .packet s.frame reader ∧
      reader.rest = after ∧
      handle uncaught s.frame = .subscribe (s.filters.map Prod.fst) answer ∧
      ((∃ bytes, answer = some bytes ∧ IsSuback bytes s.packet_id s.codes) ↔
        s.filters.length ≤ 125) := by
  have hstream : (Source.mk (s.frame.bytes ++ after) arrived).rest = s.frame.bytes ++ after := rfl
  obtain ⟨reader, hread, hrest⟩ :=
    read_packet_bytes (show SUBSCRIBE < 16 by decide) (show 2 < 16 by decide) hstream
  have hhandle : handle uncaught s.frame =
      .subscribe (s.filters.map Prod.fst) (suback s.packet_id s.codes) := by
    have htype : s.frame.pkt_type ≠ PUBLISH := show SUBSCRIBE ≠ PUBLISH by decide
    unfold handle
    rw [if_neg htype, if_pos (show s.frame.pkt_type = SUBSCRIBE from rfl), handle_subscribe_frame]
  refine ⟨reader, _, hread, hrest, hhandle, ?_⟩
  rw [suback_wellFormed s.id_lt, Subscription.codes, List.length_map]
  intro n hn
  obtain ⟨x, -, rfl⟩ := List.mem_map.mp hn
  omega

/-- A SUBSCRIBE packet with 126 filters. -/
def crowded : Subscription where
  packet_id := 1
  filters := List.replicate 126 (['a'], 0)
  id_lt := by decide
  fits := by
    intro x hx
    rw [List.eq_of_mem_replicate hx]
    exact ⟨by decide, by decide⟩

/-- What it is answered is not a SUBACK packet: its length reads as 0, and more follows. -/
theorem suback_crowded : ∃ bytes, (handleSubscribe crowded.frame.body).2 = some bytes ∧
    ¬ IsSuback bytes crowded.packet_id crowded.codes := by
  have hcodes : crowded.codes = List.replicate 126 0 := List.map_replicate
  have hlength : crowded.codes.length = 126 := by rw [hcodes, List.length_replicate]
  have hzero : ∀ n ∈ crowded.codes, n = 0 := by
    intro n hn
    rw [hcodes] at hn
    exact List.eq_of_mem_replicate hn
  have hanswer := suback_eq crowded.id_lt fun n hn => by
    rw [hzero n hn]
    decide
  rw [hlength, if_pos (by decide)] at hanswer
  rw [handle_subscribe_frame]
  refine ⟨_, hanswer, fun h => ?_⟩
  have hshort := (suback_wellFormed crowded.id_lt fun n hn => (hzero n hn).trans_le (by decide)).mp
    ⟨_, hanswer, h⟩
  rw [hlength] at hshort
  exact absurd hshort (by decide)

end TreeMiner.Mqtt
