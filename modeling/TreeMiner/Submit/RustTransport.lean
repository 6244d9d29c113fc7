import TreeMiner.Lib.Source
import TreeMiner.Lib.Utf8
import TreeMiner.Submit.RustClassifier

/-!
# The Rust HTTP transport (`treeminer-submit/src/transport.rs`, `http.rs`)

An answer is read until the server closes or `Content-Length` bytes are there, and
what has been read by then is the answer: everything behind the header block is the body.
That is one byte too few when the server closes early, and some too many when a read
brings more than was announced. `response_exact_iff` says when the body is what the
server announced.

The socket hands out its bytes in pieces of up to 2048. What fails before a read, the
deadline included, is the text of the error.
-/

namespace TreeMiner.RustTransport

open Cxx RustClassifier

/-- `TransportResult`. -/
structure TransportResult where
  transport_ok : Bool := false
  http_status : Int := 0
  body : String := ""
  retry_after : Option String := none
  date_header : Option String := none
  error : String := ""
  deriving DecidableEq

/-- `TransportResult::ok`. -/
def TransportResult.ok (status : Int) (body : String) : TransportResult :=
  { transport_ok := true, http_status := status, body := body }

/-- `TransportResult::down`. -/
def TransportResult.down (error : String) : TransportResult := { error := error }

/-- The characters of a `&str`. -/
abbrev Str := List Char

/-! ## Strings -/

/-- `split("\r\n")`. -/
def splitCrlf : Str → List Str
  | [] => [[]]
  | '\r' :: '\n' :: s => [] :: splitCrlf s
  | c :: s =>
    match splitCrlf s with
    | [] => [[c]]
    | l :: ls => (c :: l) :: ls

/-- `split_once(':')`. -/
def splitOnce (line : Str) : Option (Str × Str) :=
  match line.dropWhile (· ≠ ':') with
  | [] => none
  | _ :: value => some (line.takeWhile (· ≠ ':'), value)

/-- `eq_ignore_ascii_case`. -/
def eqIgnoreAsciiCase (s t : Str) : Bool := s.map Char.toLower = t.map Char.toLower

/-- `trim`. -/
def trim (s : Str) : Str :=
  ((s.dropWhile isWhitespace).reverse.dropWhile isWhitespace).reverse

/-- `split_whitespace`. -/
def splitWhitespace (s : Str) : List Str := (s.splitOnP isWhitespace).filter (· ≠ [])

/-- The value of a run of digits. -/
def digitsValue (acc : Nat) : Str → Option Nat
  | [] => some acc
  | c :: s => if c.isDigit then digitsValue (acc * 10 + (c.toNat - 48)) s else none

/-- The digits of `from_str_radix`, of which there is one at least. -/
def parseDigits (s : Str) : Option Nat := if s = [] then none else digitsValue 0 s

/-- `parse::<usize>`. -/
def parseUsize (s : Str) : Option Nat :=
  let digits := match s with
    | '+' :: s => s
    | s => s
  (parseDigits digits).bind fun n => if n < 2 ^ 64 then some n else none

/-- `parse::<i32>`. -/
def parseI32 (s : Str) : Option Int :=
  match s with
  | '-' :: s => (parseDigits s).bind fun n => if n ≤ 2 ^ 31 then some (-(n : Int)) else none
  | '+' :: s => (parseDigits s).bind fun n => if n < 2 ^ 31 then some (n : Int) else none
  | s => (parseDigits s).bind fun n => if n < 2 ^ 31 then some (n : Int) else none

/-! ## The header block -/

/-- `b"\r\n\r\n"`. -/
def terminator : Bytes := [13, 10, 13, 10]

/-- `find_header_end`. -/
def findHeaderEnd : Bytes → Option Nat
  | [] => none
  | c :: s =>
    if terminator.isPrefixOf (c :: s) then some 4 else (findHeaderEnd s).map (· + 1)

/-- The loop of `content_length`. -/
def contentLengthOf : List Str → Option Nat
  | [] => none
  | line :: lines =>
    match splitOnce line with
    | none => contentLengthOf lines
    | some (name, value) =>
      if eqIgnoreAsciiCase name "content-length".toList then parseUsize (trim value)
      else contentLengthOf lines

/-- `content_length`. -/
def contentLength (headers : Bytes) : Option Nat :=
  (Utf8.decode headers).bind fun text => contentLengthOf (splitCrlf text)

/-- `parse_status`. -/
def parseStatus (line : Str) : Option Int :=
  match splitWhitespace line with
  | _ :: status :: _ => parseI32 status
  | _ => none

/-- One line of the loop of `parse_response`: `retry_after` and `date_header`. -/
def takeHeader (r : Option String × Option String) (line : Str) : Option String × Option String :=
  if line = [] then r
  else match splitOnce line with
    | none => r
    | some (name, value) =>
      let value := String.ofList (trim value)
      if eqIgnoreAsciiCase name "retry-after".toList then (some value, r.2)
      else if eqIgnoreAsciiCase name "date".toList then (r.1, some value)
      else r

/-- `parse_response`. -/
def parseResponse (raw : Bytes) : TransportResult :=
  match findHeaderEnd raw with
  | none => .down "malformed HTTP response (no header terminator)"
  | some header_end =>
    match Utf8.decode (raw.take header_end) with
    | none => .down "HTTP headers are not UTF-8"
    | some headers =>
      let lines := splitCrlf headers
      let http_status := (parseStatus (lines.headD [])).getD 0
      if http_status ≤ 0 then .down "malformed HTTP status line"
      else
        let r := lines.tail.foldl takeHeader (none, none)
        { transport_ok := true
          http_status := http_status
          body := String.ofList (Utf8.lossy (raw.drop header_end))
          retry_after := r.1
          date_header := r.2 }

/-! ## Reading -/

/-- A connection: what the server sends before it closes, which a `Vec` can hold, and
the error before each read if there is one. -/
structure Connection where
  source : Source
  failure : Nat → Option String
  fits : source.rest.length < 2 ^ 63

/-- The test for a whole answer. `header_end + len` is a `usize`. -/
def whole (buf : Bytes) : Bool :=
  match findHeaderEnd buf with
  | none => false
  | some header_end =>
    match contentLength (buf.take header_end) with
    | none => false
    | some len => (header_end + len) % 2 ^ 64 ≤ buf.length

/-- The loop of `read_http_response`: what has been read, or an error. -/
def readLoop (stream : Source) (failure : Nat → Option String) (buf : Bytes) :
    Except String Bytes :=
  match failure 0 with
  | some err => .error err
  | none =>
    match _h : stream.read 2048 with
    | ([], _) => .ok buf
    | (c :: tmp, stream) =>
      if whole (buf ++ c :: tmp) then .ok (buf ++ c :: tmp)
      else readLoop stream (fun k => failure (k + 1)) (buf ++ c :: tmp)
termination_by stream.rest.length
decreasing_by
  rw [(Source.read_cons _h).1, List.length_append, List.length_cons]
  omega

/-- `read_http_response`. -/
def readHttpResponse (c : Connection) : TransportResult :=
  match readLoop c.source c.failure [] with
  | .error err => .down err
  | .ok buf => parseResponse buf

/-! ## The header block in a part of an answer -/

section Header

variable {a b : Bytes} {n p : Nat}

/-- The end of the header is behind its blank line, and within what was read. -/
theorem find_header_end_bounds : ∀ {a : Bytes} {n : Nat}, findHeaderEnd a = some n →
    4 ≤ n ∧ n ≤ a.length
  | [], _, h => by cases h
  | c :: s, n, h => by
    rw [findHeaderEnd] at h
    split at h
    next hpre =>
      cases h
      exact ⟨Nat.le_refl _, (List.isPrefixOf_iff_prefix.mp hpre).length_le⟩
    next =>
      obtain ⟨m, hm, rfl⟩ := Option.map_eq_some_iff.mp h
      obtain ⟨hfour, hlong⟩ := find_header_end_bounds hm
      rw [List.length_cons]
      omega

/-- Where a text starts does not depend on what comes after four bytes. -/
theorem terminator_append {c : UInt8} {s : Bytes} (b : Bytes) (hs : 3 ≤ s.length) :
    terminator.isPrefixOf (c :: (s ++ b)) = terminator.isPrefixOf (c :: s) := by
  have happ : c :: s <+: c :: (s ++ b) := List.prefix_append (c :: s) b
  rw [Bool.eq_iff_iff, List.isPrefixOf_iff_prefix, List.isPrefixOf_iff_prefix]
  constructor
  · intro h
    exact List.prefix_of_prefix_length_le h happ (Nat.succ_le_succ hs)
  · intro h
    exact h.trans happ

/-- A header block that has been read stays where it is. -/
theorem find_header_end_append (b : Bytes) : ∀ {a : Bytes} {n : Nat}, findHeaderEnd a = some n →
    findHeaderEnd (a ++ b) = some n
  | [], _, h => by cases h
  | c :: s, n, h => by
    have hlong := (find_header_end_bounds h).2
    have hfour := (find_header_end_bounds h).1
    rw [List.length_cons] at hlong
    rw [List.cons_append, findHeaderEnd, terminator_append b (by omega)]
    rw [findHeaderEnd] at h
    split at h
    next hpre =>
      rw [if_pos hpre]
      exact h
    next hpre =>
      obtain ⟨m, hm, rfl⟩ := Option.map_eq_some_iff.mp h
      rw [if_neg hpre, find_header_end_append b hm]
      rfl

/-- It is found as soon as it is there. -/
theorem find_header_end_part : ∀ {a b : Bytes} {n : Nat}, findHeaderEnd (a ++ b) = some n →
    n ≤ a.length → findHeaderEnd a = some n
  | [], b, n, h, hn => by
    have hfour := (find_header_end_bounds h).1
    rw [List.length_nil] at hn
    omega
  | c :: s, b, n, h, hn => by
    have hfour := (find_header_end_bounds h).1
    rw [List.length_cons] at hn
    rw [List.cons_append, findHeaderEnd, terminator_append b (by omega)] at h
    rw [findHeaderEnd]
    split at h
    next hpre =>
      rw [if_pos hpre]
      exact h
    next hpre =>
      obtain ⟨m, hm, rfl⟩ := Option.map_eq_some_iff.mp h
      rw [if_neg hpre, find_header_end_part hm (by omega)]
      rfl

/-- What has been read of an answer is whole when what was announced is there. -/
theorem whole_prefix {len : Nat} (h : findHeaderEnd (a ++ b) = some n)
    (hlen : contentLength ((a ++ b).take n) = some len) (hfits : n + len < 2 ^ 64) :
    whole a = true ↔ n + len ≤ a.length := by
  -- once the headers are complete in `a`, what follows does not move their end
  by_cases hn : n ≤ a.length
  · rw [List.take_append_of_le_length hn] at hlen
    unfold whole
    rw [find_header_end_part h hn]
    simp only
    rw [hlen]
    simp only
    rw [decide_eq_true_iff, Nat.mod_eq_of_lt hfits]
  · have hnone : findHeaderEnd a = none := by
      cases hm : findHeaderEnd a with
      | none => rfl
      | some m =>
        have hm' := find_header_end_append b hm
        rw [h] at hm'
        have hle := (find_header_end_bounds hm).2
        cases hm'
        omega
    unfold whole
    rw [hnone]
    simp only [Bool.false_eq_true, false_iff]
    omega

end Header

/-! ## Where reading stops -/

/-- Reading has stopped behind a read, with a whole answer or at the end of the stream,
and no answer was whole before. -/
theorem readLoop_ok {stream : Source} {failure : Nat → Option String} {buf out : Bytes}
    (h : readLoop stream failure buf = .ok out) :
    ∃ k, buf ++ stream.rest = out ++ (stream.after 2048 k).rest ∧
      (whole out = true ∨ (stream.after 2048 k).rest = []) ∧
      ∀ j < k, ∀ part, buf ++ stream.rest = part ++ (stream.after 2048 j).rest →
        part = buf ∨ whole part = false := by
  -- the loop ends with the stream, with a whole answer, or goes on reading
  fun_induction readLoop stream failure buf with
  | case1 => cases h
  | case2 stream failure buf hfail last hread =>
    cases h
    refine ⟨0, rfl, Or.inr ?_, fun j hj => absurd hj (Nat.not_lt_zero j)⟩
    exact (Source.read_eq_nil (by decide)).mp (congrArg Prod.fst hread)
  | case3 stream failure buf hfail c tmp stream' hread hwhole =>
    cases h
    obtain ⟨hrest, -⟩ := Source.read_cons hread
    refine ⟨1, ?_, Or.inl hwhole, ?_⟩
    · show buf ++ stream.rest = buf ++ c :: tmp ++ (stream.read 2048).2.rest
      rw [hread, hrest, List.append_assoc]
    · intro j hj part hpart
      obtain rfl : j = 0 := by omega
      exact Or.inl (List.append_cancel_right hpart).symm
  -- one read more: the count of the reads goes up by one, and all before it were no whole answer
  | case4 stream failure buf hfail c tmp stream' hread hwhole ih =>
    obtain ⟨hrest, -⟩ := Source.read_cons hread
    obtain ⟨k, hsplit, hstop, hbefore⟩ := ih h
    have hstep : ∀ j, stream.after 2048 (j + 1) = stream'.after 2048 j := by
      intro j
      show (stream.read 2048).2.after 2048 j = stream'.after 2048 j
      rw [hread]
    have happ : buf ++ stream.rest = buf ++ c :: tmp ++ stream'.rest := by
      rw [hrest, List.append_assoc]
    refine ⟨k + 1, ?_, ?_, ?_⟩
    · rw [happ, hstep, hsplit]
    · rw [hstep]
      exact hstop
    · intro j hj part hpart
      cases j with
      | zero => exact Or.inl (List.append_cancel_right hpart).symm
      | succ j =>
        rw [hstep, happ] at hpart
        rcases hbefore j (by omega) part hpart with heq | hpart
        · -- the part read first is the one just tested
          rw [heq]
          exact Or.inr (Bool.eq_false_iff.mpr hwhole)
        · exact Or.inr hpart

/-- An answer that is taken has a header block, and the rest of it is the body. -/
theorem parse_response_ok {raw : Bytes} (h : (parseResponse raw).transport_ok = true) :
    ∃ header_end, findHeaderEnd raw = some header_end ∧ 0 < (parseResponse raw).http_status ∧
      (parseResponse raw).body.toList = Utf8.lossy (raw.drop header_end) := by
  unfold parseResponse at h ⊢
  -- without a header end, and with headers that are not UTF-8, the status stays 0
  cases hend : findHeaderEnd raw with
  | none =>
    rw [hend] at h
    cases h
  | some header_end =>
    rw [hend] at h
    simp only at h ⊢
    refine ⟨header_end, rfl, ?_⟩
    cases hhead : Utf8.decode (raw.take header_end) with
    | none =>
      rw [hhead] at h
      cases h
    | some headers =>
      rw [hhead] at h
      simp only at h ⊢
      split at h
      · cases h
      next hpos =>
        rw [if_neg hpos]
        exact ⟨Int.not_le.mp hpos, String.toList_ofList⟩

/-- Reading stops behind the announced body exactly when a read ends there. -/
theorem stops_at {source : Source} {failure : Nat → Option String} {out : Bytes} {n len : Nat}
    (h : readLoop source failure [] = .ok out) (hend : findHeaderEnd source.rest = some n)
    (hlen : contentLength (source.rest.take n) = some len) (hthere : n + len ≤ source.rest.length)
    (hfits : source.rest.length < 2 ^ 63) :
    ∃ more, source.rest = out ++ more ∧ n + len ≤ out.length ∧
      (out.length = n + len ↔ source.EndsAt 2048 (n + len)) := by
  obtain ⟨k, hsplit, hstop, hbefore⟩ := readLoop_ok h
  rw [List.nil_append] at hsplit hbefore
  -- what is whole has everything that was announced, and conversely
  have hwhole : ∀ part more, source.rest = part ++ more →
      (whole part = true ↔ n + len ≤ part.length) := by
    intro part more hpart
    rw [hpart] at hend hlen
    exact whole_prefix hend hlen (by omega)
  have hle : n + len ≤ out.length := by
    rcases hstop with hw | hnil
    · exact (hwhole out _ hsplit).mp hw
    · rw [hnil, List.append_nil] at hsplit
      rwa [← hsplit]
  refine ⟨_, hsplit, hle, ?_⟩
  have hk := congrArg List.length hsplit
  rw [List.length_append] at hk
  constructor
  · intro heq
    refine ⟨hthere, k, ?_⟩
    rw [← heq, hsplit, List.drop_left]
  · rintro ⟨-, j, hj⟩
    have hpart : source.rest = source.rest.take (n + len) ++ (source.after 2048 j).rest := by
      rw [hj, List.take_append_drop]
    have hpos := (find_header_end_bounds hend).1
    by_cases hjk : j < k
    · -- an earlier read that ended there would have been the last
      rcases hbefore j hjk _ hpart with hnil | hno
      · have hz := congrArg List.length hnil
        rw [List.length_take_of_le hthere, List.length_nil] at hz
        omega
      · have hyes := (hwhole _ _ hpart).mpr (Nat.le_of_eq (List.length_take_of_le hthere).symm)
        rw [hno] at hyes
        cases hyes
    · -- reads do not give back
      have hrest : (source.after 2048 j).rest.length ≤ (source.after 2048 k).rest.length := by
        obtain ⟨i, rfl⟩ := Nat.exists_eq_add_of_le (Nat.le_of_not_lt hjk)
        rw [Source.after_add]
        exact Source.after_length_le _ 2048 i
      rw [hj, List.length_drop] at hrest
      omega

/-- An answer that is taken has a header block. When it announces `len` bytes, the body is
the `len` bytes behind that block exactly when they are UTF-8 and a read ends with the last
of them. -/
theorem response_exact_iff (c : Connection) (hok : (readHttpResponse c).transport_ok = true) :
    ∃ header_end, findHeaderEnd c.source.rest = some header_end ∧
      ∀ len, contentLength (c.source.rest.take header_end) = some len →
        ((header_end + len ≤ c.source.rest.length ∧
            Utf8.encode (readHttpResponse c).body.toList =
              (c.source.rest.drop header_end).take len) ↔
          (c.source.EndsAt 2048 (header_end + len) ∧
            ∃ text, Utf8.encode text = (c.source.rest.drop header_end).take len)) := by
  unfold readHttpResponse at hok ⊢
  cases hread : readLoop c.source c.failure [] with
  | error err =>
    rw [hread] at hok
    cases hok
  | ok out =>
    rw [hread] at hok
    simp only at hok ⊢
    obtain ⟨n, hend, -, hbody⟩ := parse_response_ok hok
    obtain ⟨k, hsplit, -⟩ := readLoop_ok hread
    rw [List.nil_append] at hsplit
    have hend' : findHeaderEnd c.source.rest = some n := by
      rw [hsplit]
      exact find_header_end_append _ hend
    refine ⟨n, hend', fun len hlen => ?_⟩
    rw [hbody]
    have hn := (find_header_end_bounds hend).2
    constructor
    · rintro ⟨hthere, hexact⟩
      obtain ⟨more, hmore, hle, hiff⟩ := stops_at hread hend' hlen hthere c.fits
      refine ⟨hiff.mp ?_, _, hexact⟩
      -- a body with replacements is not shorter than what was read
      have hlong := Utf8.length_le_lossy (out.drop n)
      rw [hexact, List.length_take, List.length_drop, List.length_drop] at hlong
      omega
    · rintro ⟨hends, text, htext⟩
      obtain ⟨more, hmore, hle, hiff⟩ := stops_at hread hend' hlen hends.1 c.fits
      have hstop := hiff.mpr hends
      have hrest : (c.source.rest.drop n).take len = out.drop n := by
        rw [hmore, List.drop_append_of_le_length hn,
          List.take_left' (by rw [List.length_drop]; omega)]
      rw [hrest] at htext ⊢
      exact ⟨hends.1, Utf8.encode_lossy.mpr ⟨text, htext⟩⟩

/-- A server that announces two bytes and sends them. -/
def complete : Connection where
  source := ⟨lit "HTTP/1.1 200 OK\r\nContent-Length: 2\r\n\r\nOK", fun _ => 2047⟩
  failure := fun _ => none
  fits := by decide

/-- A response whose body is all there. -/
theorem response_exact_complete :
    ∃ header_end, findHeaderEnd complete.source.rest = some header_end ∧
      ∀ len, contentLength (complete.source.rest.take header_end) = some len →
        ((header_end + len ≤ complete.source.rest.length ∧
            Utf8.encode (readHttpResponse complete).body.toList =
              (complete.source.rest.drop header_end).take len) ↔
          (complete.source.EndsAt 2048 (header_end + len) ∧
            ∃ text, Utf8.encode text = (complete.source.rest.drop header_end).take len)) :=
  response_exact_iff complete (by decide +kernel)

/-- A server that announces a hundred bytes and closes after two. -/
def cut : Connection where
  source := ⟨lit "HTTP/1.1 200 OK\r\nContent-Length: 100\r\n\r\nOK", fun _ => 2047⟩
  failure := fun _ => none
  fits := by decide

/-- The two bytes are taken for the answer. -/
theorem response_cut :
    (readHttpResponse cut).transport_ok = true ∧ (readHttpResponse cut).http_status = 200 ∧
      (readHttpResponse cut).body = "OK" ∧ ∃ header_end,
      findHeaderEnd cut.source.rest = some header_end ∧
      contentLength (cut.source.rest.take header_end) = some 100 ∧
      (cut.source.rest.drop header_end).length = 2 := by
  refine ⟨by decide +kernel, by decide +kernel, by decide +kernel, 40, ?_, ?_, ?_⟩
  · decide
  · decide
  · decide

end TreeMiner.RustTransport
