import Mx.Http1.Wire

/-!
# Responses are decoded however they arrive

What a connection holds between events is the front of a response. As long as the buffer of the body
is not full when bytes are received into it, a response that is not chunked is decoded, whatever the
pieces it arrives in.
-/

namespace Mx.Http1

open Strings Mx.Core List
open Pkg (integer isDigit digitsValue integer_of_lt)

/-! ## Status lines -/

theorem Message.statusLine_eq (m : Message) : m.statusLine =
    72 :: 84 :: 84 :: 80 :: 47 :: 49 :: 46 :: 49 :: 32 :: (m.digits ++ 32 :: m.reason) := by
  have htext : text "HTTP/1.1 " = [72, 84, 84, 80, 47, 49, 46, 49, 32] := by decide
  rw [Message.statusLine, htext]
  rfl

theorem digit_toNat {d : Nat} (h : d < 10) : (UInt8.ofNat (48 + d)).toNat = 48 + d :=
  UInt8.toNat_ofNat_of_lt' (by simp only [UInt8.size]; omega)

theorem isDigit_ofNat {d : Nat} (h : d < 10) : isDigit (UInt8.ofNat (48 + d)) = true := by
  have hnat := digit_toNat h
  rw [isDigit, Bool.and_eq_true, decide_eq_true_eq, decide_eq_true_eq, UInt8.le_iff_toNat_le,
    UInt8.le_iff_toNat_le, hnat]
  constructor
  · exact Nat.le_add_right 48 d
  · show 48 + d ≤ 57
    omega

/-- The digits of a status code stand for it. -/
theorem Message.digits_spec {m : Message} (h : m.code < 1000) :
    (∀ ch ∈ m.digits, isDigit ch = true) ∧ digitsValue m.digits = m.code := by
  constructor
  · intro ch hch
    simp only [Message.digits, mem_cons, not_mem_nil, or_false] at hch
    rcases hch with rfl | rfl | rfl
    · exact isDigit_ofNat (by omega)
    · exact isDigit_ofNat (by omega)
    · exact isDigit_ofNat (by omega)
  · have hnum : Nat.ofDigits 10 [m.code % 10, m.code / 10 % 10, m.code / 100] = m.code := by
      simp only [Nat.ofDigits_cons, Nat.ofDigits_nil]
      omega
    have hvalue := Pkg.digitsValue_digits [m.code % 10, m.code / 10 % 10, m.code / 100]
      (by simp only [mem_cons, not_mem_nil, or_false]; omega) (by omega)
    rw [hnum] at hvalue
    exact hvalue

/-- The code is read from a status line. -/
theorem Message.statusLine_code {m : Message} (h : m.code < 1000) :
    digitsValue ((m.statusLine.drop 9).takeWhile isDigit) = m.code := by
  obtain ⟨hdigits, hvalue⟩ := Message.digits_spec h
  have hdrop : m.statusLine.drop 9 = m.digits ++ 32 :: m.reason := by
    rw [m.statusLine_eq]
    rfl
  have htake : (m.digits ++ 32 :: m.reason).takeWhile isDigit = m.digits := by
    rw [takeWhile_append_of_pos hdigits, takeWhile_cons_of_neg (by decide), append_nil]
  rw [hdrop, htake, hvalue]

theorem Message.WellFormed.statusLine_cr {m : Message} (hm : m.WellFormed) :
    (13 : UInt8) ∉ m.statusLine := by
  have hdigit := (Message.digits_spec hm.code_lt).1 13
  rw [m.statusLine_eq]
  simp only [mem_cons, mem_append, not_or]
  refine ⟨by decide, by decide, by decide, by decide, by decide, by decide, by decide, by decide,
    by decide, ?_, by decide, hm.reason⟩
  intro hmem
  exact absurd (hdigit hmem) (by decide)

theorem copyOut_line {b : Buffer} {line unread : Text} {size : Nat} (hsize : line.length ≤ size)
    (h : b.unread = line ++ (Buffer.crlf ++ unread)) : b.copyOut line.length size = line := by
  rw [Buffer.copyOut, Nat.min_eq_left hsize, h, take_left]

theorem consume_line {b : Buffer} {line unread : Text}
    (h : b.unread = line ++ (Buffer.crlf ++ unread)) :
    (b.consume (line.length + 2)).unread = unread := by
  have hle : line.length + 2 ≤ b.unread.length := by
    rw [h, ← append_assoc, length_append, length_append]
    exact Nat.le_add_right _ _
  rw [b.consume_unread hle, h, ← append_assoc]
  exact drop_left' length_append

/-- A whole status line is parsed. -/
theorem parseStatusLine_line {m : Message} (hm : m.WellFormed) {c : ConnRec} {unread : Text}
    (h : c.recvBuf.unread = m.statusLine ++ (Buffer.crlf ++ unread)) :
    parseStatusLine c = (true, { c with
      recvBuf := c.recvBuf.consume (m.statusLine.length + 2)
      resp := { c.resp with statusCode := m.code } }) := by
  have hpos : c.recvBuf.findCRLF = some m.statusLine.length := by
    rw [Buffer.findCRLF, h, Buffer.pos_crlf_line hm.statusLine_cr]
  have hlen : 12 ≤ m.statusLine.length := by
    rw [m.statusLine_eq]
    simp only [length_cons, length_append, Message.digits]
    omega
  have hfront : m.statusLine.take 5 = text "HTTP/" := by
    have htext : text "HTTP/" = [72, 84, 84, 80, 47] := by decide
    rw [m.statusLine_eq, htext]
    rfl
  rw [parseStatusLine, hpos]
  simp only [copyOut_line (Nat.le_of_lt hm.status_lt) h, if_neg (Nat.not_le.2 hm.status_lt),
    if_neg (Nat.not_lt.2 hlen), hfront, ne_eq, not_true_eq_false, ite_false,
    Message.statusLine_code hm.code_lt]

/-! ## Header lines -/

theorem strEqCI_iff {a b : Text} {n k : Nat} :
    strEqCI a b n k = true ↔ n = k ∧ (a.take n).map toLower = (b.take n).map toLower := by
  rw [strEqCI, Bool.and_eq_true, decide_eq_true_eq, decide_eq_true_eq]

/-- The name of a header is compared with the whole of another name. -/
theorem HeaderLine.strEqCI_name (h : HeaderLine) {name : String} {n : Nat}
    (hn : (text name).length = n) (hlower : (text name).map toLower = text name) :
    strEqCI h.line (text name) h.name.length n = true ↔ h.Named name := by
  have htake : h.line.take h.name.length = h.name := take_left
  rw [strEqCI_iff, htake, HeaderLine.Named]
  constructor
  · rintro ⟨hlen, heq⟩
    rw [take_of_length_le (by omega), hlower] at heq
    exact heq
  · intro heq
    have hlen : h.name.length = n := by
      rw [← hn, ← heq, length_map]
    refine ⟨hlen, ?_⟩
    rw [take_of_length_le (by omega), hlower]
    exact heq

/-- The start of a line is not both the name and the value of a header of chunked bodies. -/
theorem strEqCI_never (line : Text) (n k : Nat) :
    ¬ (strEqCI line (text "transfer-encoding") n 17 = true ∧ k ≥ 7 ∧
      strEqCI line (text "chunked") k 7 = true) := by
  rintro ⟨hname, -, hvalue⟩
  obtain ⟨rfl, hname⟩ := strEqCI_iff.1 hname
  obtain ⟨rfl, hvalue⟩ := strEqCI_iff.1 hvalue
  have hstart := congrArg (List.take 7) hname
  rw [← map_take, ← map_take, take_take, take_take] at hstart
  exact absurd (hvalue.symm.trans hstart) (by decide)

namespace HeaderLine

variable {h : HeaderLine}

theorem WellFormed.takeWhile_name (hw : h.WellFormed) :
    h.line.takeWhile (· ≠ 58) = h.name := by
  have hname : ∀ ch ∈ h.name, decide (ch ≠ 58) = true := by
    intro ch hch
    rw [decide_eq_true_eq]
    rintro rfl
    exact hw.name hch
  rw [HeaderLine.line, takeWhile_append_of_pos hname, takeWhile_cons_of_neg (by simp), append_nil]

theorem line_length (h : HeaderLine) :
    h.line.length = h.name.length + 1 + (h.lead ++ h.value ++ h.trail).length := by
  rw [HeaderLine.line, length_append, length_cons]
  omega

/-- The value is what follows the spaces. -/
theorem WellFormed.dropWhile_value (hw : h.WellFormed) (hs : h.Spaced) :
    (h.line.drop (h.name.length + 1)).dropWhile (· = 32) = h.value := by
  have hdrop : h.line.drop (h.name.length + 1) = h.lead ++ h.value := by
    have hline : h.line = (h.name ++ [58]) ++ (h.lead ++ h.value ++ h.trail) := by
      simp [HeaderLine.line]
    rw [hline, hs.trail, append_nil]
    exact drop_left' (by rw [length_append]; rfl)
  have hlead : ∀ ch ∈ h.lead, decide (ch = 32) = true := by
    intro ch hch
    rw [decide_eq_true_eq]
    exact hs.lead ch hch
  rw [hdrop, dropWhile_append_of_pos hlead]
  cases hv : h.value with
  | nil => rfl
  | cons ch value =>
    have hfirst := hw.first
    rw [hv, head?_cons, Option.any_some] at hfirst
    have hne : ¬ decide (ch = 32) = true := by
      rw [decide_eq_true_eq]
      rintro rfl
      exact absurd hfirst (by decide)
    exact dropWhile_cons_of_neg hne

/-- The length of the body, after a header. -/
def contentLen (h : HeaderLine) (len : Int) : Int :=
  if h.Named "content-length" then digitsValue (h.value.filter isDigit) else len

end HeaderLine

/-- A header is stored, and its value is the length of the body if its name says so. -/
theorem parseHeader_line {h : HeaderLine} (hw : h.WellFormed) (hs : h.Spaced) {c : ConnRec}
    (hroom : c.resp.headers.length < maxHeaders) :
    parseHeader c h.line = { c with
      contentLen := h.contentLen c.contentLen
      resp := { c.resp with
        headers := c.resp.headers ++ [h.header]
        contentLength := h.contentLen c.resp.contentLength } } := by
  have hcolon : h.name.length < h.line.length := by
    rw [h.line_length]
    omega
  have hname : min h.name.length (maxHeaderName - 1) = h.name.length :=
    Nat.min_eq_left (Nat.le_sub_one_of_lt hw.name_lt)
  have hvalue : min h.value.length (maxHeaderVal - 1) = h.value.length :=
    Nat.min_eq_left (Nat.le_sub_one_of_lt hw.value_lt)
  have hstored : Header.mk (h.line.take h.name.length) (h.value.take h.value.length) =
      h.header := by
    rw [take_length, HeaderLine.header]
    exact congrArg (Header.mk · h.value) take_left
  have hlen : strEqCI h.line (text "content-length") h.name.length 14 = true ↔
      h.Named "content-length" := h.strEqCI_name (by decide) (by decide)
  have hflag := strEqCI_never h.line h.name.length h.value.length
  rw [parseHeader, hw.takeWhile_name, if_pos hcolon]
  simp only [hroom, ite_true, hname, hvalue, hw.dropWhile_value hs, hstored, hlen, hflag, ite_false,
    HeaderLine.contentLen]
  by_cases hnamed : h.Named "content-length"
  · simp only [hnamed, ite_true]
  · simp only [hnamed, ite_false]

/-! ## Headers -/

/-- A connection that receives: nothing is settled yet. -/
structure Receiving (c : ConnRec) : Prop where
  cap : c.recvBuf.cap = recvBufCap
  chunked : c.chunked = false
  headOnly : c.headOnly = false
  settled : c.settled = []

/-- The first headers of a response are stored. -/
structure Stored (m : Message) (body : Option Buffer) (before : List HeaderLine) (c : ConnRec) :
    Prop extends Receiving c where
  statusCode : c.resp.statusCode = m.code
  headers : c.resp.headers = before.map HeaderLine.header
  contentLen : c.contentLen = before.foldl (fun len h => h.contentLen len) (-1)
  body : c.resp.body = body
  bodyRead : c.bodyRead = 0

/-- What is held or still to come are the other headers and the body. -/
structure InHeaders (m : Message) (body : Option Buffer) (rest : Text)
    (before after : List HeaderLine) (c : ConnRec) : Prop extends Stored m body before c where
  split : m.headers = before ++ after
  bytes : c.recvBuf.unread ++ rest = headerBytes after ++ (Buffer.crlf ++ m.framing.bytes)

/-- The condition on the headers of a response. -/
structure Message.Readable (m : Message) : Prop where
  headers : ∀ h ∈ m.headers, h.WellFormed
  spaced : ∀ h ∈ m.headers, h.Spaced
  headers_le : m.headers.length ≤ maxHeaders

section Headers

variable {m : Message} {body : Option Buffer} {rest : Text} {before after : List HeaderLine}
  {c : ConnRec}

/-- The end of the line that comes next, and what follows it. -/
theorem headerBytes_cons (h : HeaderLine) (after : List HeaderLine) (tail : Text) :
    headerBytes (h :: after) ++ tail = h.line ++ (Buffer.crlf ++ (headerBytes after ++ tail)) := by
  rw [headerBytes, flatMap_cons, ← headerBytes, append_assoc, append_assoc]

/-- A header is read. -/
theorem InHeaders.next {h : HeaderLine} (hm : m.Readable)
    (hc : InHeaders m body rest before (h :: after) c) {unread : Text}
    (hunread : c.recvBuf.unread = h.line ++ (Buffer.crlf ++ unread))
    (hrest : unread ++ rest = headerBytes after ++ (Buffer.crlf ++ m.framing.bytes)) :
    ∃ c', parseHeader { c with recvBuf := c.recvBuf.consume (h.line.length + 2) } h.line = c' ∧
      InHeaders m body rest (before ++ [h]) after c' ∧ c'.recvBuf.unread = unread ∧
      c'.state = c.state := by
  have hmem : h ∈ m.headers := by
    rw [hc.split]
    exact mem_append_right _ mem_cons_self
  have hroom : c.resp.headers.length < maxHeaders := by
    have hle := hm.headers_le
    rw [hc.split, length_append, length_cons] at hle
    rw [hc.headers, length_map]
    omega
  have hconsume := consume_line hunread
  refine ⟨_, parseHeader_line (hm.headers h hmem) (hm.spaced h hmem) hroom, ?_, hconsume, rfl⟩
  constructor
  · constructor
    · exact ⟨(Buffer.consume_cap _ _).trans hc.cap, hc.chunked, hc.headOnly, hc.settled⟩
    · exact hc.statusCode
    · simp only [hc.headers, map_append, map_cons, map_nil]
    · simp only [hc.contentLen, foldl_append, foldl_cons, foldl_nil]
    · exact hc.body
    · exact hc.bodyRead
  · rw [hc.split, append_assoc]
    rfl
  · simp only [hconsume, hrest]

/-- The loop reads the headers up to the one that has not arrived, or all of them. -/
theorem headerLoop_spec (hm : m.Readable) (fuel : Nat) (hc : InHeaders m body rest before after c)
    (hfuel : c.recvBuf.unread.length < fuel) :
    ∃ c', (headerLoop fuel c = (false, c') ∧ c'.state = c.state ∧ c'.recvBuf.findCRLF = none ∧
        ∃ before' after', InHeaders m body rest before' after' c') ∨
      (headerLoop fuel c = (true, c') ∧ Stored m body m.headers c' ∧
        c'.recvBuf.unread ++ rest = m.framing.bytes) := by
  induction fuel generalizing before after c with
  | zero => omega
  | succ fuel ih =>
    cases after with
    | nil =>
      have hempty : (13 : UInt8) ∉ ([] : Text) := not_mem_nil
      rcases Buffer.split_line hempty hc.bytes with ⟨hnone, -⟩ | ⟨hsome, unread, heq, htail⟩
      · refine ⟨c, .inl ⟨?_, rfl, hnone, before, [], hc⟩⟩
        rw [headerLoop, Buffer.findCRLF, hnone]
      · refine ⟨{ c with recvBuf := c.recvBuf.consume 2 }, .inr ⟨?_, ?_, ?_⟩⟩
        · rw [headerLoop, Buffer.findCRLF, hsome]
          rfl
        · have hsplit : m.headers = before := by rw [hc.split, append_nil]
          rw [hsplit]
          exact ⟨⟨(Buffer.consume_cap _ _).trans hc.cap, hc.chunked, hc.headOnly, hc.settled⟩,
            hc.statusCode, hc.headers, hc.contentLen, hc.body, hc.bodyRead⟩
        · have hconsume := consume_line heq
          simp only [length_nil, Nat.zero_add] at hconsume
          simp only [hconsume, htail]
    | cons h after =>
      have hw := hm.headers h (by rw [hc.split]; exact mem_append_right _ mem_cons_self)
      have hbytes := hc.bytes
      rw [headerBytes_cons] at hbytes
      rcases Buffer.split_line hw.line hbytes with ⟨hnone, -⟩ | ⟨hsome, unread, heq, htail⟩
      · refine ⟨c, .inl ⟨?_, rfl, hnone, before, h :: after, hc⟩⟩
        rw [headerLoop, Buffer.findCRLF, hnone]
      · have hpos : h.line.length ≠ 0 := by
          rw [h.line_length]
          omega
        obtain ⟨c₁, hparse, hnext, hunread, hstate⟩ := hc.next hm heq htail
        have hshorter : c₁.recvBuf.unread.length < fuel := by
          have hlen := congrArg List.length heq
          rw [length_append, length_append] at hlen
          rw [hunread]
          omega
        obtain ⟨c', hc'⟩ := ih hnext hshorter
        refine ⟨c', ?_⟩
        rw [headerLoop, Buffer.findCRLF, hsome]
        simp only [if_neg hpos, copyOut_line (Nat.le_of_lt hw.line_lt) heq,
          if_neg (Nat.not_le.2 hw.line_lt), hparse]
        rw [← hstate]
        exact hc'

end Headers

/-! ## The length of a body -/

theorem decimal_append (s : Text) (ch : UInt8) :
    decimal (s ++ [ch]) = decimal s * 10 + (ch.toNat - 48) := by
  rw [decimal, foldl_append]
  rfl

/-- Digits that stand for an `INTEGER` are read as it. -/
theorem digitsValue_eq_decimal {s : Text} (hs : ∀ ch ∈ s, isDigit ch = true)
    (hlt : decimal s < 2 ^ 31) : digitsValue s = decimal s := by
  induction s using List.reverseRecOn with
  | nil => rfl
  | append_singleton s ch ih =>
    rw [decimal_append] at hlt ⊢
    have hrest := ih (fun ch' hch' => hs ch' (mem_append_left _ hch')) (by omega)
    have hch := hs ch (mem_append_right _ (mem_singleton_self ch))
    rw [isDigit, Bool.and_eq_true, decide_eq_true_eq, decide_eq_true_eq,
      UInt8.le_iff_toNat_le, UInt8.le_iff_toNat_le] at hch
    have hlow : 48 ≤ ch.toNat := hch.1
    have hvalue : digitsValue (s ++ [ch]) = integer (digitsValue s * 10 + (ch.toNat - 48)) := by
      rw [digitsValue, foldl_append]
      rfl
    rw [hvalue, hrest, integer_of_lt (by omega) (by omega)]
    omega

/-- Headers that agree on the length of the body give it. -/
theorem contentLen_foldl {hs : List HeaderLine} {n : Int}
    (heq : ∀ h ∈ hs, h.Named "content-length" → digitsValue (h.value.filter isDigit) = n)
    (len : Int) (hlen : len = n ∨ ∃ h ∈ hs, h.Named "content-length") :
    hs.foldl (fun len h => h.contentLen len) len = n := by
  induction hs generalizing len with
  | nil =>
    rcases hlen with rfl | ⟨h, hmem, -⟩
    · rfl
    · cases hmem
  | cons h hs ih =>
    refine ih (fun h' hmem => heq h' (mem_cons_of_mem _ hmem)) (h.contentLen len) ?_
    rw [HeaderLine.contentLen]
    by_cases hnamed : h.Named "content-length"
    · rw [if_pos hnamed]
      exact .inl (heq h mem_cons_self hnamed)
    · rw [if_neg hnamed]
      rcases hlen with rfl | ⟨h', hmem, hnamed'⟩
      · exact .inl rfl
      · rcases mem_cons.1 hmem with rfl | hmem
        · exact absurd hnamed' hnamed
        · exact .inr ⟨h', hmem, hnamed'⟩

/-- The length that the headers of a response give, or minus one. -/
def Framing.len : Framing → Int
  | .contentLength body => body.length
  | _ => -1

theorem Framing.of_len_nonneg {f : Framing} (h : 0 ≤ f.len) :
    ∃ body, f = .contentLength body := by
  cases f with
  | contentLength body => exact ⟨body, rfl⟩
  | chunked chunks zeros ext trailers | untilClose body =>
    rw [Framing.len] at h
    · omega
    · simp

theorem Message.WellFormed.contentLen {m : Message} (hm : m.WellFormed) :
    m.headers.foldl (fun len h => h.contentLen len) (-1) = m.framing.len := by
  have hframing := hm.framing
  have hbody := hm.body_lt
  cases hf : m.framing with
  | contentLength body =>
    rw [hf] at hframing hbody
    obtain ⟨hsome, -, hall⟩ := hframing
    apply contentLen_foldl _ (-1) (.inr hsome)
    intro h hmem hnamed
    obtain ⟨hdigits, hvalue⟩ := hall h hmem hnamed
    rw [all_eq_true] at hdigits
    have hmax : maxCap = 65536 := rfl
    have hlt : body.length < maxCap := hbody
    rw [filter_eq_self.2 hdigits, digitsValue_eq_decimal hdigits (by omega), hvalue]
    rfl
  | chunked chunks zeros ext trailers =>
    rw [hf] at hframing
    exact contentLen_foldl (fun h hmem hnamed => absurd hnamed (hframing.2.1 h hmem)) _ (.inl rfl)
  | untilClose body =>
    rw [hf] at hframing
    exact contentLen_foldl (fun h hmem hnamed => absurd hnamed (hframing.1 h hmem)) _ (.inl rfl)

/-! ## Bodies -/

/-- A body whose end the client looks for: it is not chunked. -/
def Framing.Plain : Framing → Prop
  | .chunked _ _ _ _ => False
  | _ => True

theorem Framing.Plain.bytes {f : Framing} (h : f.Plain) : f.bytes = f.body := by
  cases f with
  | contentLength body => rfl
  | chunked chunks zeros ext trailers => exact h.elim
  | untilClose body => rfl

/-- The body is received. -/
structure InBody (m : Message) (rest : Text) (b : Buffer) (c : ConnRec) : Prop extends
    Receiving c where
  state : c.state = .recvBody
  statusCode : c.resp.statusCode = m.code
  headers : c.resp.headers = m.headers.map HeaderLine.header
  contentLen : c.contentLen = m.framing.len
  body : c.resp.body = some b
  bytes : b.unread ++ rest = m.framing.body
  bodyRead : c.bodyRead = b.unread.length
  nonzero : m.framing.len ≠ 0
  more : 0 < m.framing.len → (b.unread.length : Int) < m.framing.len

/-- The promise is settled once, with the response. -/
def Settled (m : Message) (c : ConnRec) : Prop :=
  c.settled.map Settlement.seen = [m.decoded]

section Bodies

variable {m : Message} {body : Option Buffer} {rest : Text} {c : ConnRec}

theorem succeedConn_settled (hsettled : c.settled = []) (hstatus : c.resp.statusCode = m.code)
    (hheaders : c.resp.headers = m.headers.map HeaderLine.header)
    (hbody : (c.resp.body.getD c.recvBuf).unread = m.framing.body) : Settled m (succeedConn c) := by
  rw [Settled, succeedConn]
  simp only [hsettled, nil_append, map_cons, map_nil, Settlement.seen, hstatus,
    hheaders, Option.map_some, hbody, Message.decoded]

/-- A body of which enough has arrived is complete, if its length was given. -/
theorem body_complete {b : Buffer} (hbytes : b.unread ++ rest = m.framing.body)
    (hpos : 0 < m.framing.len) (hle : m.framing.len ≤ b.unread.length) :
    b.unread = m.framing.body := by
  have hlen := congrArg List.length hbytes
  rw [length_append] at hlen
  have hrest : rest = [] := by
    apply eq_nil_of_length_eq_zero
    obtain ⟨body, hf⟩ := Framing.of_len_nonneg (Int.le_of_lt hpos)
    rw [hf] at hlen hle
    simp only [Framing.len, Framing.body] at hlen hle
    omega
  rw [← hbytes, hrest, append_nil]

/-- After the headers the connection receives the body, or has received it. -/
theorem transitionToBody_spec (hm : m.WellFormed) (hplain : m.framing.Plain)
    (hnone : m.framing = .contentLength [] → body = none) (hc : Stored m body m.headers c)
    (hbytes : c.recvBuf.unread ++ rest = m.framing.bytes) :
    (∃ b, InBody m rest b (transitionToBody c)) ∨ Settled m (transitionToBody c) := by
  rw [hplain.bytes] at hbytes
  have hlen : c.contentLen = m.framing.len := hc.contentLen.trans hm.contentLen
  rw [transitionToBody, hc.headOnly, hc.chunked]
  simp only [Bool.false_eq_true, ite_false]
  by_cases hzero : c.contentLen = 0
  · rw [if_pos hzero]
    -- only a length that was given is zero
    have hempty : m.framing = .contentLength [] := by
      rw [hlen] at hzero
      obtain ⟨body', hf⟩ := Framing.of_len_nonneg (Int.le_of_eq hzero.symm)
      rw [hf] at hzero ⊢
      simp only [Framing.len] at hzero
      rw [eq_nil_of_length_eq_zero (by omega : body'.length = 0)]
    right
    apply succeedConn_settled hc.settled hc.statusCode hc.headers
    rw [hempty] at hbytes ⊢
    rw [hc.body, hnone hempty, Option.getD_none]
    exact (append_eq_nil_iff.1 hbytes).1
  · rw [if_neg hzero]
    have hcreate : Buffer.create defaultCap .growable =
        some ⟨defaultCap, 0, [], .growable, by decide, by decide, by decide⟩ := rfl
    have hfits : c.recvBuf.unread.length ≤ maxCap :=
      (Nat.le_add_left _ _).trans (c.recvBuf.wpos_le.trans c.recvBuf.cap_le)
    obtain ⟨hunread, -⟩ := @Buffer.appendBytes_spec
      (⟨defaultCap, 0, [], .growable, by decide, by decide, by decide⟩ : Buffer)
      c.recvBuf.unread rfl (by simpa [Buffer.wpos] using hfits)
    rw [nil_append] at hunread
    simp only [hcreate, Option.map_some]
    generalize c.recvBuf.unread.foldl Buffer.appendByte _ = b at hunread ⊢
    have hread : (if c.recvBuf.length > 0 then (c.recvBuf.length : Int) else c.bodyRead) =
        b.unread.length := by
      rw [hunread, Buffer.length, hc.bodyRead]
      by_cases hpos : c.recvBuf.unread.length > 0
      · rw [if_pos hpos]
      · rw [if_neg hpos]
        omega
    rw [← hunread] at hbytes
    simp only [hread, hlen]
    by_cases hdone : m.framing.len > 0 ∧ (b.unread.length : Int) ≥ m.framing.len
    · rw [if_pos hdone]
      right
      apply succeedConn_settled
      · exact hc.settled
      · exact hc.statusCode
      · exact hc.headers
      · exact body_complete hbytes hdone.1 hdone.2
    · rw [if_neg hdone]
      left
      refine ⟨b, ⟨⟨(Buffer.consume_cap _ _).trans hc.cap, rfl, rfl, hc.settled⟩, rfl,
        hc.statusCode, hc.headers, rfl, rfl, hbytes, rfl, hlen ▸ hzero, ?_⟩⟩
      intro hpos
      exact Int.lt_of_not_ge fun hge => hdone ⟨hpos, hge⟩

end Bodies

/-! ## Events -/

/-- What is held or still to come is the whole response. -/
structure InStatus (m : Message) (body : Option Buffer) (rest : Text) (c : ConnRec) : Prop extends
    Receiving c where
  state : c.state = .recvStatus
  headers : c.resp.headers = []
  contentLen : c.contentLen = -1
  body : c.resp.body = body
  bodyRead : c.bodyRead = 0
  bytes : c.recvBuf.unread ++ rest = m.bytes

/-- Where a connection is between events. -/
inductive Progress (m : Message) (body : Option Buffer) (rest : Text) (c : ConnRec) : Prop
  | status (hc : InStatus m body rest c) (hwait : c.recvBuf.findCRLF = none)
  | headers {before after : List HeaderLine} (hc : InHeaders m body rest before after c)
      (hstate : c.state = .recvHeaders) (hwait : c.recvBuf.findCRLF = none)
  | body {b : Buffer} (hc : InBody m rest b c)
  | settled (h : Settled m c)

section Progress

variable {m : Message} {body : Option Buffer} {rest : Text} {c : ConnRec}

theorem Message.WellFormed.readable (hm : m.WellFormed) (hs : ∀ h ∈ m.headers, h.Spaced) :
    m.Readable := ⟨hm.headers, hs, hm.headers_le⟩

/-- A connection that waits for the end of a line has not all of it. -/
theorem wait_line {line tail unread : Text} (h : 13 ∉ line) (hlt : line.length < lineBufSize)
    (heq : unread ++ rest = line ++ (Buffer.crlf ++ tail)) (hwait : pos Buffer.crlf unread = none) :
    unread.length < recvBufCap ∧ rest ≠ [] := by
  rcases Buffer.split_line h heq with ⟨-, hlen⟩ | ⟨hsome, -⟩
  · have hline : lineBufSize = 2048 := rfl
    have hcap : recvBufCap = 8192 := rfl
    refine ⟨by omega, ?_⟩
    rintro rfl
    have hall := congrArg List.length heq
    have hcrlf : Buffer.crlf.length = 2 := rfl
    simp only [length_append, length_nil] at hall
    omega
  · rw [hsome] at hwait
    cases hwait

theorem InStatus.wait (hm : m.WellFormed) (hc : InStatus m body rest c)
    (hwait : c.recvBuf.findCRLF = none) : c.recvBuf.unread.length < recvBufCap ∧ rest ≠ [] := by
  have hbytes := hc.bytes
  rw [Message.bytes, append_assoc] at hbytes
  exact wait_line hm.statusLine_cr hm.status_lt hbytes hwait

theorem InHeaders.wait {before after : List HeaderLine} (hm : m.Readable)
    (hc : InHeaders m body rest before after c) (hwait : c.recvBuf.findCRLF = none) :
    c.recvBuf.unread.length < recvBufCap ∧ rest ≠ [] := by
  have hbytes := hc.bytes
  cases after with
  | nil =>
    have hempty : (13 : UInt8) ∉ ([] : Text) := not_mem_nil
    exact wait_line hempty (by decide) hbytes hwait
  | cons h after =>
    have hw := hm.headers h (by rw [hc.split]; exact mem_append_right _ mem_cons_self)
    rw [headerBytes_cons] at hbytes
    exact wait_line hw.line hw.line_lt hbytes hwait

/-- The condition on a response: it is not chunked, and the values of its headers are where the
client looks for them. A body that `PostChunked` has left must be replaced. -/
structure Message.Decodable (m : Message) (body : Option Buffer) : Prop where
  plain : m.framing.Plain
  spaced : ∀ h ∈ m.headers, h.Spaced
  replaced : m.framing = .contentLength [] → body = none

variable (hm : m.WellFormed) (hd : m.Decodable body)

include hm hd

theorem afterHeaders_spec {before after : List HeaderLine}
    (hc : InHeaders m body rest before after c) (hstate : c.state = .recvHeaders) :
    Progress m body rest (afterHeaders c) := by
  obtain ⟨c', hc'⟩ := headerLoop_spec (hm.readable hd.spaced) (c.recvBuf.length + 1) hc
    (Nat.lt_succ_self _)
  rw [afterHeaders, parseHeaders]
  rcases hc' with ⟨hloop, hsame, hwait, before', after', hin⟩ | ⟨hloop, hstored, hbytes⟩
  · rw [hloop]
    exact .headers hin (hsame.trans hstate) hwait
  · rw [hloop]
    rcases transitionToBody_spec hm hd.plain hd.replaced hstored hbytes with ⟨b, hb⟩ | hset
    · exact .body hb
    · exact .settled hset

/-- More bytes, while the connection waits for the status line. -/
theorem InStatus.received (hc : InStatus m body rest c) :
    Progress m body rest (afterStatus c) := by
  have hbytes := hc.bytes
  rw [Message.bytes, append_assoc] at hbytes
  rcases Buffer.split_line hm.statusLine_cr hbytes with ⟨hnone, -⟩ | ⟨-, unread, heq, htail⟩
  · have hparse : parseStatusLine c = (false, c) := by
      rw [parseStatusLine, Buffer.findCRLF, hnone]
    rw [afterStatus, hparse]
    exact .status hc hnone
  · rw [afterStatus, parseStatusLine_line hm heq]
    refine afterHeaders_spec hm hd (show InHeaders m body rest [] m.headers _ from ?_) rfl
    constructor
    · exact ⟨⟨(Buffer.consume_cap _ _).trans hc.cap, hc.chunked, hc.headOnly, hc.settled⟩, rfl,
        hc.headers, hc.contentLen, hc.body, hc.bodyRead⟩
    · rfl
    · simp only [consume_line heq, htail, append_assoc]

end Progress

section Events

variable {τ : Type} {read : ReadFn τ UInt8} {pending : τ → Text} {m : Message}
  {body : Option Buffer} {c : ConnRec} {t : τ}

/-- What a read gives: bytes, nothing for now, or the end. -/
theorem doRecv_cases (hread : Ends read pending) (t : τ) {max : Nat} (hmax : 0 < max) :
    ∃ status xs t', read t max = (status, xs, t') ∧
      ((status = .ok ∧ doRecv read t max = ((xs.length : Int), xs, t') ∧ 0 < xs.length ∧
          xs.length ≤ max ∧ pending t = xs ++ pending t') ∨
        (status = .wouldBlock ∧ doRecv read t max = (-2, [], t') ∧ pending t = pending t') ∨
        (status = .closed ∧ doRecv read t max = (0, [], t') ∧ pending t = [] ∧
          pending t' = [])) := by
  rcases hread.reads t max hmax with ⟨xs, t', heq, hpending⟩ | ⟨xs, t', heq, hne, hle, hpending⟩ |
    ⟨xs, t', heq, hpending, hpending'⟩
  · refine ⟨_, xs, t', heq, .inr (.inl ⟨rfl, ?_, hpending.symm⟩)⟩
    rw [doRecv, heq]
  · refine ⟨_, xs, t', heq, .inl ⟨rfl, ?_, length_pos_iff.2 hne, hle, hpending⟩⟩
    rw [doRecv, heq]
  · refine ⟨_, xs, t', heq, .inr (.inr ⟨rfl, ?_, hpending, hpending'⟩)⟩
    rw [doRecv, heq]

/-- What an event makes of a connection and its stream: it reads once, and the end of the stream
settles the promise. -/
structure Stepped (read : ReadFn τ UInt8) (pending : τ → Text) (m : Message)
    (body : Option Buffer) (c : ConnRec) (t : τ) : Prop where
  progress : Progress m body (pending (onSocketEvent read c t).2) (onSocketEvent read c t).1
  reads : ∃ n status xs, 0 < n ∧ read t n = (status, xs, (onSocketEvent read c t).2) ∧
    (status = .ok ∨ status = .wouldBlock ∨ Settled m (onSocketEvent read c t).1)

/-- What `RecvInto` makes of a connection that has room. -/
theorem recvInto_cases (hread : Ends read pending) (t : τ)
    (hroom : c.recvBuf.unread.length < c.recvBuf.cap) :
    ∃ n status xs t' buf, 0 < n ∧ read t n = (status, xs, t') ∧ buf.cap = c.recvBuf.cap ∧
      ((status = .ok ∧
        recvInto read c t = (true, (xs.length : Int), { c with recvBuf := buf }, t') ∧
          buf.unread = c.recvBuf.unread ++ xs ∧ pending t = xs ++ pending t') ∨
        (status = .wouldBlock ∧ recvInto read c t = (false, -2, { c with recvBuf := buf }, t') ∧
          buf.unread = c.recvBuf.unread ∧ pending t = pending t') ∨
        (status = .closed ∧ recvInto read c t = (false, 0, { c with recvBuf := buf }, t') ∧
          pending t = [])) := by
  have hmax : 0 < c.recvBuf.compact.remaining := by
    rw [Buffer.compact_remaining]
    omega
  obtain ⟨status, xs, t', heq, hcases⟩ := doRecv_cases hread t hmax
  rcases hcases with ⟨hstatus, hrecv, hpos, hle, hpending⟩ | ⟨hstatus, hrecv, hpending⟩ |
    ⟨hstatus, hrecv, hpending, -⟩
  · refine ⟨_, status, xs, t', c.recvBuf.compact.advanceWrite xs, hmax, heq,
      Buffer.advanceWrite_cap _ _, .inl ⟨hstatus, ?_, Buffer.advanceWrite_unread _ hle, hpending⟩⟩
    rw [recvInto]
    simp only [hrecv]
    rw [if_pos (by omega)]
  · refine ⟨_, status, xs, t', c.recvBuf.compact, hmax, heq, rfl,
      .inr (.inl ⟨hstatus, ?_, rfl, hpending⟩)⟩
    rw [recvInto]
    simp only [hrecv]
    rfl
  · refine ⟨_, status, xs, t', c.recvBuf.compact, hmax, heq, rfl,
      .inr (.inr ⟨hstatus, ?_, hpending⟩)⟩
    rw [recvInto]
    simp only [hrecv]
    rfl

theorem onSocketEvent_status (h : c.state = .recvStatus) :
    onSocketEvent read c t = match recvInto read c t with
      | (false, n, c, t) => (if n = 0 then failConn c 3 else c, t)
      | (true, _, c, t) => (afterStatus c, t) := by
  rcases hrecv : recvInto read c t with ⟨_ | _, n, c', t'⟩ <;>
    simp only [onSocketEvent, h, hrecv]

theorem onSocketEvent_headers (h : c.state = .recvHeaders) :
    onSocketEvent read c t = match recvInto read c t with
      | (false, n, c, t) => (if n = 0 then failConn c 3 else c, t)
      | (true, _, c, t) => (afterHeaders c, t) := by
  rcases hrecv : recvInto read c t with ⟨_ | _, n, c', t'⟩ <;>
    simp only [onSocketEvent, h, hrecv]

theorem onSocketEvent_body (h : c.state = .recvBody) (hchunked : c.chunked = false) :
    onSocketEvent read c t = recvBody read c t := by
  rw [onSocketEvent, h]
  simp only [hchunked, Bool.false_eq_true, ite_false]

variable (hread : Ends read pending) (hm : m.WellFormed) (hd : m.Decodable body)

include hread hm hd

theorem InStatus.step (hc : InStatus m body (pending t) c) (hwait : c.recvBuf.findCRLF = none) :
    Stepped read pending m body c t := by
  obtain ⟨hlen, hne⟩ := hc.wait hm hwait
  obtain ⟨n, status, xs, t', buf, hn, heq, hcap, hcases⟩ :=
    recvInto_cases hread t (by rw [hc.cap]; exact hlen)
  have hbytes := hc.bytes
  rcases hcases with ⟨hstatus, hrecv, hunread, hpending⟩ | ⟨hstatus, hrecv, hunread, hpending⟩ |
    ⟨hstatus, hrecv, hpending⟩
  · have hin : InStatus m body (pending t') { c with recvBuf := buf } := by
      refine ⟨⟨hcap.trans hc.cap, hc.chunked, hc.headOnly, hc.settled⟩, hc.state, hc.headers,
        hc.contentLen, hc.body, hc.bodyRead, ?_⟩
      simp only [hunread, append_assoc, ← hpending, hbytes]
    have hnext := hin.received hm hd
    have hevent : onSocketEvent read c t = (afterStatus { c with recvBuf := buf }, t') := by
      rw [onSocketEvent_status hc.state]
      simp only [hrecv]
    constructor
    · rw [hevent]
      exact hnext
    · rw [hevent]
      exact ⟨n, status, xs, hn, heq, .inl hstatus⟩
  · have hevent : onSocketEvent read c t = ({ c with recvBuf := buf }, t') := by
      rw [onSocketEvent_status hc.state]
      simp only [hrecv]
      rfl
    constructor
    · rw [hevent]
      refine .status ⟨⟨hcap.trans hc.cap, hc.chunked, hc.headOnly, hc.settled⟩, hc.state,
        hc.headers, hc.contentLen, hc.body, hc.bodyRead, ?_⟩ ?_
      · simp only [hunread, ← hpending, hbytes]
      · simp only [Buffer.findCRLF, hunread]
        exact hwait
    · rw [hevent]
      exact ⟨n, status, xs, hn, heq, .inr (.inl hstatus)⟩
  · exact absurd hpending hne

theorem InHeaders.step {before after : List HeaderLine}
    (hc : InHeaders m body (pending t) before after c) (hstate : c.state = .recvHeaders)
    (hwait : c.recvBuf.findCRLF = none) : Stepped read pending m body c t := by
  obtain ⟨hlen, hne⟩ := hc.wait (hm.readable hd.spaced) hwait
  obtain ⟨n, status, xs, t', buf, hn, heq, hcap, hcases⟩ :=
    recvInto_cases hread t (by rw [hc.cap]; exact hlen)
  have hbytes := hc.bytes
  have hkept : ∀ rest : Text, buf.unread ++ rest = c.recvBuf.unread ++ pending t →
      InHeaders m body rest before after { c with recvBuf := buf } := by
    intro rest hrest
    refine ⟨⟨⟨hcap.trans hc.cap, hc.chunked, hc.headOnly, hc.settled⟩, hc.statusCode, hc.headers,
      hc.contentLen, hc.body, hc.bodyRead⟩, hc.split, ?_⟩
    simp only [hrest, hbytes]
  rcases hcases with ⟨hstatus, hrecv, hunread, hpending⟩ | ⟨hstatus, hrecv, hunread, hpending⟩ |
    ⟨hstatus, hrecv, hpending⟩
  · have hin := hkept (pending t') (by rw [hunread, hpending, append_assoc])
    have hevent : onSocketEvent read c t = (afterHeaders { c with recvBuf := buf }, t') := by
      rw [onSocketEvent_headers hstate]
      simp only [hrecv]
    constructor
    · rw [hevent]
      exact afterHeaders_spec hm hd hin hstate
    · rw [hevent]
      exact ⟨n, status, xs, hn, heq, .inl hstatus⟩
  · have hin := hkept (pending t') (by rw [hunread, hpending])
    have hevent : onSocketEvent read c t = ({ c with recvBuf := buf }, t') := by
      rw [onSocketEvent_headers hstate]
      simp only [hrecv]
      rfl
    constructor
    · rw [hevent]
      refine .headers hin hstate ?_
      simp only [Buffer.findCRLF, hunread]
      exact hwait
    · rw [hevent]
      exact ⟨n, status, xs, hn, heq, .inr (.inl hstatus)⟩
  · exact absurd hpending hne

omit hm hd in
/-- A body is received, unless its buffer is full. -/
theorem InBody.step (hm : m.WellFormed) {b : Buffer} (hc : InBody m (pending t) b c)
    (hroom : b.unread.length < b.cap) : Stepped read pending m body c t := by
  have hmax : 0 < b.compact.remaining := by
    rw [Buffer.compact_remaining]
    omega
  have hbytes := hc.bytes
  obtain ⟨status, xs, t', heq, hcases⟩ := doRecv_cases hread t hmax
  rcases hcases with ⟨hstatus, hrecv, hpos, hle, hpending⟩ | ⟨hstatus, hrecv, hpending⟩ |
    ⟨hstatus, hrecv, hpending, -⟩
  · have hunread : (b.compact.advanceWrite xs).unread = b.unread ++ xs :=
      Buffer.advanceWrite_unread _ hle
    generalize hb' : b.compact.advanceWrite xs = b' at hunread
    have hbytes' : b'.unread ++ pending t' = m.framing.body := by
      rw [hunread, append_assoc, ← hpending, hbytes]
    have hread' : integer (c.bodyRead + xs.length) = b'.unread.length := by
      have hlen := congrArg List.length hbytes'
      have hlt := hm.body_lt
      have hmax : maxCap = 65536 := rfl
      rw [hunread, length_append, length_append] at hlen
      rw [hc.bodyRead, hunread, length_append, integer_of_lt (by omega) (by omega)]
      omega
    have hevent : onSocketEvent read c t =
        (if m.framing.len > 0 ∧ (b'.unread.length : Int) ≥ m.framing.len then
          succeedConn { c with
            resp := { c.resp with body := some b' }, bodyRead := b'.unread.length }
        else { c with resp := { c.resp with body := some b' }, bodyRead := b'.unread.length },
          t') := by
      rw [onSocketEvent_body hc.state hc.chunked, recvBody, hc.body]
      simp only [Option.map_some, Option.getD_some, hrecv, hb', hread', hc.contentLen]
      rw [if_pos (by omega)]
    by_cases hdone : m.framing.len > 0 ∧ (b'.unread.length : Int) ≥ m.framing.len
    · have hset : Settled m (succeedConn { c with
          resp := { c.resp with body := some b' }, bodyRead := b'.unread.length }) := by
        apply succeedConn_settled
        · exact hc.settled
        · exact hc.statusCode
        · exact hc.headers
        · exact body_complete hbytes' hdone.1 hdone.2
      rw [if_pos hdone] at hevent
      constructor
      · rw [hevent]
        exact .settled hset
      · rw [hevent]
        exact ⟨_, status, xs, hmax, heq, .inl hstatus⟩
    · rw [if_neg hdone] at hevent
      constructor
      · rw [hevent]
        refine .body (b := b') ⟨⟨hc.cap, hc.chunked, hc.headOnly, hc.settled⟩, hc.state,
          hc.statusCode, hc.headers, hc.contentLen, rfl, hbytes', rfl, hc.nonzero, ?_⟩
        intro hpos
        exact Int.lt_of_not_ge fun hge => hdone ⟨hpos, hge⟩
      · rw [hevent]
        exact ⟨_, status, xs, hmax, heq, .inl hstatus⟩
  · have hevent : onSocketEvent read c t =
        ({ c with resp := { c.resp with body := some (b.compact.advanceWrite []) } }, t') := by
      rw [onSocketEvent_body hc.state hc.chunked, recvBody, hc.body]
      simp only [Option.map_some, Option.getD_some, hrecv]
      rfl
    have hunread : (b.compact.advanceWrite []).unread = b.unread := by
      rw [Buffer.advanceWrite_unread _ (Nat.zero_le _), append_nil, Buffer.compact_unread]
    constructor
    · rw [hevent]
      refine .body (b := b.compact.advanceWrite []) ⟨⟨hc.cap, hc.chunked, hc.headOnly, hc.settled⟩,
        hc.state, hc.statusCode, hc.headers, hc.contentLen, rfl, ?_, ?_, hc.nonzero, ?_⟩
      · rw [hunread, ← hpending, hbytes]
      · rw [hunread]
        exact hc.bodyRead
      · rw [hunread]
        exact hc.more
    · rw [hevent]
      exact ⟨_, status, xs, hmax, heq, .inr (.inl hstatus)⟩
  · have hset : Settled m (onSocketEvent read c t).1 := by
      rw [onSocketEvent_body hc.state hc.chunked, recvBody, hc.body]
      simp only [Option.map_some, Option.getD_some, hrecv]
      rw [if_neg (by decide), if_pos trivial]
      apply succeedConn_settled
      · exact hc.settled
      · exact hc.statusCode
      · exact hc.headers
      · simp only [Option.getD_some]
        rw [Buffer.advanceWrite_unread _ (Nat.zero_le _), append_nil, Buffer.compact_unread]
        rw [hpending, append_nil] at hbytes
        exact hbytes
    have hstream : (onSocketEvent read c t).2 = t' := by
      rw [onSocketEvent_body hc.state hc.chunked, recvBody, hc.body]
      simp only [Option.map_some, Option.getD_some, hrecv]
      rfl
    constructor
    · exact .settled hset
    · rw [hstream]
      exact ⟨_, status, xs, hmax, heq, .inr (.inr hset)⟩

/-- The buffer of a body is not full. -/
def HasRoom (c : ConnRec) : Prop :=
  c.state = .recvBody → ∀ b, c.resp.body = some b → b.unread.length < b.cap

/-- An event, while nothing is settled. -/
theorem Progress.step (h : Progress m body (pending t) c) (hroom : HasRoom c) :
    Settled m c ∨ (c.settled = [] ∧ Stepped read pending m body c t) := by
  cases h with
  | status hc hwait => exact .inr ⟨hc.settled, hc.step hread hm hd hwait⟩
  | headers hc hstate hwait => exact .inr ⟨hc.settled, hc.step hread hm hd hstate hwait⟩
  | body hc => exact .inr ⟨hc.settled, hc.step hread hm (hroom hc.state _ hc.body)⟩
  | settled h => exact .inl h

omit hread hm hd in
theorem Settled.ne_nil (h : Settled m c) : c.settled ≠ [] := by
  intro hnil
  rw [Settled, hnil] at h
  cases h

/-- An event keeps what holds between events. -/
theorem Progress.next {s : ConnRec × τ} (h : Progress m body (pending s.2) s.1)
    (hroom : HasRoom s.1) : Progress m body (pending (event read s).2) (event read s).1 := by
  rw [event]
  rcases h.step hread hm hd hroom with hset | ⟨hnil, hstep⟩
  · rw [if_neg hset.ne_nil]
    exact h
  · rw [if_pos hnil]
    exact hstep.progress

theorem Progress.run {s : ConnRec × τ} (h : Progress m body (pending s.2) s.1)
    (hroom : ∀ n, HasRoom (events read n s).1) (n : Nat) :
    Progress m body (pending (events read n s).2) (events read n s).1 := by
  induction n with
  | zero => exact h
  | succ n ih =>
    rw [events, Function.iterate_succ_apply']
    exact ih.next hread hm hd (hroom n)

/-- If the stream comes to where a response is settled, or to its end, then it is settled. -/
theorem Progress.settles {goal : τ → Prop}
    (hgoal : ∀ c t, goal t → Progress m body (pending t) c → Settled m c)
    (ht : Comes read goal t) (h : Progress m body (pending t) c)
    (hroom : ∀ n, HasRoom (events read n (c, t)).1) :
    ∃ n, Settled m (events read n (c, t)).1 := by
  induction ht generalizing c with
  | here hg => exact ⟨0, hgoal c _ hg h⟩
  | @later t _ _ ihBlock ihOk =>
    rcases h.step hread hm hd (hroom 0) with hset | ⟨hnil, hstep⟩
    · exact ⟨0, hset⟩
    · have hevent : event read (c, t) = onSocketEvent read c t := by
        rw [Http1.event, if_pos hnil]
      obtain ⟨max, status, xs, hmax, heq, hstatus⟩ := hstep.reads
      have hlater : ∀ n, events read (n + 1) (c, t) = events read n (onSocketEvent read c t) := by
        intro n
        rw [events, Function.iterate_succ_apply, hevent]
        rfl
      have hroom' : ∀ n, HasRoom (events read n (onSocketEvent read c t)).1 := by
        intro n
        rw [← hlater]
        exact hroom (n + 1)
      rcases hstatus with rfl | rfl | hset
      · obtain ⟨n, hn⟩ := ihOk max xs _ hmax heq hstep.progress hroom'
        exact ⟨n + 1, by rw [hlater]; exact hn⟩
      · obtain ⟨n, hn⟩ := ihBlock max xs _ hmax heq hstep.progress hroom'
        exact ⟨n + 1, by rw [hlater]; exact hn⟩
      · exact ⟨1, by rw [hlater 0]; exact hset⟩

omit hread in
theorem Progress.settled_of_nil (hlen : 0 ≤ m.framing.len) (h : Progress m body [] c) :
    Settled m c := by
  cases h with
  | status hc hwait => exact absurd rfl (hc.wait hm hwait).2
  | headers hc hstate hwait => exact absurd rfl (hc.wait (hm.readable hd.spaced) hwait).2
  | @body b hc =>
    have hnonzero := hc.nonzero
    have hmore := hc.more (by omega)
    obtain ⟨body', hf⟩ := Framing.of_len_nonneg hlen
    have hall := hc.bytes
    rw [hf, append_nil] at hall
    rw [hf, hall] at hmore
    exact absurd hmore (Int.lt_irrefl _)
  | settled h => exact h

end Events

/-! ## Responses -/

theorem sent_progress {m : Message} {body : Option Buffer} :
    Progress m body m.bytes (.sent body) :=
  .status ⟨⟨rfl, rfl, rfl, rfl⟩, rfl, rfl, rfl, rfl, rfl, rfl⟩ rfl

/-- A response that is not chunked settles the promise of its request at most once, and with its
status code, its headers and its body; and it does so once it has arrived, whatever the pieces it
arrives in, if no event finds the buffer of the body full. -/
theorem response_decoded {τ : Type} {read : ReadFn τ UInt8} {pending : τ → Text}
    (hread : Ends read pending) {m : Message} (hm : m.WellFormed) {body : Option Buffer}
    (hd : m.Decodable body) {t : τ} (ht : pending t = m.bytes)
    (hroom : ∀ n, HasRoom (events read n (.sent body, t)).1) :
    (∀ n, (events read n (.sent body, t)).1.settled.map Settlement.seen <+: [m.decoded]) ∧
      (m.Arrives read pending t →
        ∃ n, (events read n (.sent body, t)).1.settled.map Settlement.seen = [m.decoded]) := by
  have hstart : Progress m body (pending t) (.sent body) := ht ▸ sent_progress
  constructor
  · intro n
    have hprogress := Progress.run hread hm hd (s := (.sent body, t)) hstart hroom n
    cases hprogress with
    | status hc hwait | headers hc hstate hwait | body hc =>
      rw [hc.settled]
      exact List.nil_prefix
    | settled h => rw [h]
  · intro harrives
    rw [Message.Arrives] at harrives
    cases hf : m.framing with
    | contentLength body' =>
      rw [hf] at harrives
      refine Progress.settles hread hm hd ?_ harrives hstart hroom
      intro c t' hnil h
      rw [hnil] at h
      exact h.settled_of_nil hm hd (by rw [hf]; exact Int.natCast_nonneg _)
    | chunked chunks zeros ext trailers =>
      have hplain := hd.plain
      rw [hf] at hplain
      exact hplain.elim
    | untilClose body' =>
      rw [hf] at harrives
      exact Progress.settles hread hm hd (fun _ _ hfalse => hfalse.elim) harrives hstart hroom

/-- A stream that gives all that it is asked for. -/
def readAll (t : Text) (n : Nat) : TransportStatus × Text × Text :=
  if t = [] then (.closed, [], []) else (.ok, t.take n, t.drop n)

theorem readAll_ends : Ends readAll id := by
  constructor
  intro t n hn
  by_cases ht : t = []
  · refine .inr (.inr ⟨[], [], ?_, ht, rfl⟩)
    rw [readAll, if_pos ht]
  · refine .inr (.inl ⟨t.take n, t.drop n, ?_, ?_, List.length_take_le n t,
      (take_append_drop n t).symm⟩)
    · rw [readAll, if_neg ht]
    · rw [ne_eq, take_eq_nil_iff, not_or]
      exact ⟨Nat.ne_of_gt hn, ht⟩

/-- A response whose length is given. -/
def helloMessage : Message where
  code := 200
  reason := text "OK"
  headers := [⟨text "Content-Length", [32], text "5", []⟩]
  framing := .contentLength (text "hello")

theorem helloMessage_wellFormed : helloMessage.WellFormed where
  code_ge := by decide
  code_lt := by decide
  reason := by decide
  status_lt := by decide
  headers := by
    intro h hmem
    obtain rfl := mem_singleton.1 hmem
    exact ⟨by decide, by decide, by decide, by decide, by decide, by decide, by decide, by decide,
      by decide⟩
  headers_le := by decide
  framing := by
    refine ⟨by decide, by decide, by decide⟩
  body_lt := by decide

theorem response_decoded_hello :
    (∀ n, (events readAll n (.sent none, helloMessage.bytes)).1.settled.map Settlement.seen <+:
      [helloMessage.decoded]) ∧
    (helloMessage.Arrives readAll id helloMessage.bytes →
      ∃ n, (events readAll n (.sent none, helloMessage.bytes)).1.settled.map Settlement.seen =
        [helloMessage.decoded]) := by
  apply response_decoded readAll_ends helloMessage_wellFormed
  · exact ⟨trivial, by
      intro h hmem
      obtain rfl := mem_singleton.1 hmem
      exact ⟨by decide +kernel, rfl⟩, fun _ => rfl⟩
  · rfl
  · intro n hstate
    -- one event settles the promise, and no other one follows
    have hdone : ∀ n,
        (events readAll (n + 1) (.sent none, helloMessage.bytes)).1.state = .done := by
      intro n
      have hfix : event readAll (event readAll (.sent none, helloMessage.bytes)) =
          event readAll (.sent none, helloMessage.bytes) := by
        rw [event, if_neg (by decide +kernel)]
      rw [events, Function.iterate_succ_apply, Function.iterate_fixed hfix]
      decide +kernel
    cases n with
    | zero => cases hstate
    | succ n =>
      rw [hdone n] at hstate
      cases hstate

example : lineBufSize ≤ recvBufCap := by decide +kernel

/-- A chunked response. -/
def chunkedMessage : Message where
  code := 200
  reason := text "OK"
  headers := [⟨text "Transfer-Encoding", [32], text "chunked", []⟩]
  framing := .chunked [⟨text "5", [], text "hello"⟩] (text "0") [] []

theorem chunkedMessage_wellFormed : chunkedMessage.WellFormed where
  code_ge := by decide
  code_lt := by decide
  reason := by decide
  status_lt := by decide
  headers := by
    intro h hmem
    obtain rfl := mem_singleton.1 hmem
    exact ⟨by decide, by decide, by decide, by decide, by decide, by decide, by decide, by decide,
      by decide⟩
  headers_le := by decide
  framing := by
    refine ⟨by decide, by decide, ?_, by decide, by decide +kernel,
      ⟨.inl rfl, by decide⟩, by simp⟩
    intro k hk
    obtain rfl := mem_singleton.1 hk
    exact ⟨by decide +kernel, by decide, ⟨.inl rfl, by decide⟩, by decide⟩
  body_lt := by decide

/-- A chunked response is not decoded: its body is what was sent. -/
theorem not_response_decoded :
    ¬ ∀ (τ : Type) (read : ReadFn τ UInt8) (pending : τ → Text) (m : Message) (t : τ),
      Ends read pending → m.WellFormed → pending t = m.bytes →
      (∀ n, (events read n (.sent none, t)).1.settled.map Settlement.seen <+: [m.decoded]) ∧
        (m.Arrives read pending t →
          ∃ n, (events read n (.sent none, t)).1.settled.map Settlement.seen = [m.decoded]) := by
  intro h
  have hsafe := (h Text readAll id chunkedMessage chunkedMessage.bytes readAll_ends
    chunkedMessage_wellFormed rfl).1 2
  revert hsafe
  decide +kernel

end Mx.Http1
