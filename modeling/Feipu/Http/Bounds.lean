import Feipu.Http.HttpServer
import Feipu.Http.Parse
import Feipu.Lib.Refine
import Feipu.Lib.Scan
import Feipu.Lib.Trace

/-!
# The parser stays inside its buffer

The parser of `HttpHandler` once more, with every read checked: `parse_line` may read the current
line, the scans of `parse_request_line` and `parse_headers` the line and the NUL behind it, and
`parse_content` the readable bytes.  `none` is a read outside them, a failed `assert`, a scan
position past the readable bytes, or an `int index` of `parse_request_line` that overflows.

* `parseHttpIn_spec`   as long as an `int` can count the request line the checked parser is the
                       parser, and otherwise it fails;
* `inside_iff`         over the runs of one handler, also past `PARSE_END` and `PARSE_ERROR`.
-/

namespace Feipu
open CStr CStr.Bounded Lines Consume Trace Refine

/-! ## parse_line -/

/-- the current line: the readable bytes up to the first LF, or all of them -/
def currentLine (b : Buffer) : Bytes :=
  b.readable.take ((b.readable.takeWhile (· != 10)).length + 1)

/-- `parseLineLoop` with the bytes it reads checked -/
def parseLineLoopIn (b : Buffer) : Nat → Nat → Option (LineStatus × Nat × Buffer)
  | 0, i => some (.lineOpen, i, b)
  | k + 1, i =>
    (currentLine b)[i]?.bind fun tmp =>
      if tmp = 13 then
        if i + 1 = b.getReadableBytes then some (.lineOpen, i, b)
        else (currentLine b)[i + 1]?.bind fun next =>
          if next = 10 then (b.replaceCRCF i).map fun b' => (.lineOk, i + 2, b')
          else some (.lineBad, i, b)
      else if tmp = 10 then
        if i > 0 then (currentLine b)[i - 1]?.bind fun prev =>
          if prev = 13 then (b.replaceCRCF (i - 1)).map fun b' => (.lineOk, i + 1, b')
          else some (.lineBad, i, b)
        else some (.lineBad, i, b)
      else parseLineLoopIn b k (i + 1)

def parseLineIn (lineIndex : Nat) (b : Buffer) : Option (LineStatus × Nat × Buffer) :=
  if lineIndex ≤ b.getReadableBytes then
    parseLineLoopIn b (b.getReadableBytes - lineIndex) lineIndex
  else none

section
variable {b : Buffer} {i : Nat}

theorem line_byte (h : i < b.getReadableBytes)
    (hline : i ≤ (b.readable.takeWhile (· != 10)).length) :
    (currentLine b)[i]? = some (at' b.peek i) := by
  have hlt : i < b.readable.length := by rw [b.length_readable]; exact h
  rw [currentLine, List.getElem?_take_of_lt (by omega), Buffer.at_peek hlt, at_of_lt hlt]
  exact List.getElem?_eq_getElem hlt

/-- no LF yet -/
theorem line_next (h : i < b.getReadableBytes) (hline : i ≤ (b.readable.takeWhile (· != 10)).length)
    (hlf : at' b.peek i ≠ 10) : i + 1 ≤ (b.readable.takeWhile (· != 10)).length := by
  have hlt : i < b.readable.length := by rw [b.length_readable]; exact h
  rw [Buffer.at_peek hlt] at hlf
  exact succ_le_takeWhile hlt hline (bne_iff_ne.mpr hlf)

theorem parseLineLoopIn_eq (k : Nat) (h : i + k = b.getReadableBytes)
    (hline : i ≤ (b.readable.takeWhile (· != 10)).length) :
    parseLineLoopIn b k i = parseLineLoop b k i := by
  induction k generalizing i with
  | zero => rfl
  | succ k ih =>
    have hi : i < b.getReadableBytes := by omega
    rw [parseLineLoopIn, parseLineLoop, line_byte hi hline, Option.bind_some]
    by_cases hcr : at' b.peek i = 13
    · have hnext := line_next hi hline (by rw [hcr]; exact cr_ne_lf)
      rw [if_pos hcr, if_pos hcr]
      by_cases hend : i + 1 = b.getReadableBytes
      · rw [if_pos hend, if_pos hend]
      · rw [if_neg hend, if_neg hend, line_byte (by omega) hnext, Option.bind_some]
    · rw [if_neg hcr, if_neg hcr]
      by_cases hlf : at' b.peek i = 10
      · rw [if_pos hlf, if_pos hlf]
        by_cases hpos : i > 0
        · rw [if_pos hpos, line_byte (by omega) (by omega), Option.bind_some]
          by_cases hprev : at' b.peek (i - 1) = 13
          · rw [if_pos hprev, if_pos ⟨hpos, hprev⟩]
          · rw [if_neg hprev, if_neg fun hc => hprev hc.2]
        · rw [if_neg hpos, if_neg fun hc => hpos hc.1]
      · rw [if_neg hlf, if_neg hlf]
        exact ih (by omega) (line_next hi hline hlf)

theorem parseLineIn_eq (h : Scanned b.readable i) : parseLineIn i b = parseLine i b := by
  obtain ⟨hlen, hclean⟩ := h
  have hi : i ≤ b.getReadableBytes := by rw [← b.length_readable]; exact hlen
  have hline : i ≤ (b.readable.takeWhile (· != 10)).length :=
    le_takeWhile hlen fun c hc => bne_iff_ne.mpr (hclean c hc).2
  rw [parseLineIn, if_pos hi]
  exact parseLineLoopIn_eq _ (by omega) hline

end

/-! ## parse_request_line -/

/-- `parse_request_line` on the memory `text`: `index` and `start_index` are `int`s -/
def parseRequestLineIn (text : Bytes) (req : HttpRequest) : Option (ParseStatus × HttpRequest) :=
  let startIndex := 0
  (scanInt inWord (text.drop startIndex) startIndex).bind fun index =>
    text[index]?.bind fun c =>
      if c = 0 then some (.parseError, req)
      else
        let method := (text.drop startIndex).take (index - startIndex)
        (incr index).bind fun startIndex =>
          match req.setMethod method with
          | none => some (.parseError, req)
          | some req =>
            (scanInt inWord (text.drop startIndex) startIndex).bind fun index =>
              text[index]?.bind fun c =>
                if c = 0 then some (.parseError, req)
                else
                  let url := (text.drop startIndex).take (index - startIndex)
                  (incr index).bind fun startIndex =>
                    match req.setUrl url with
                    | none => some (.parseError, req)
                    | some req =>
                      (scanInt (· != 0) (text.drop startIndex) startIndex).bind fun index =>
                        let version := (text.drop startIndex).take (index - startIndex)
                        (incr index).bind fun _ =>
                          some (match req.setVersion version with
                            | none => (.parseError, req)
                            | some req => (.parseNext, req))

/-- the first blank or NUL from `text + k` on -/
def wordEnd (text : Bytes) (k : Nat) : Nat := k + ((text.drop k).takeWhile inWord).length

/-- An `int` can count the line as far as it is read: up to its first blank or NUL, behind a
supported method up to the second one, and behind a path up to its NUL. -/
def Counts (text : Bytes) (req : HttpRequest) : Prop :=
  let m := wordEnd text 0
  if at' text m = 0 then m < 2 ^ 31
  else m + 1 < 2 ^ 31 ∧ (req.setMethod (text.take m) ≠ none →
    let u := wordEnd text (m + 1)
    if at' text u = 0 then u < 2 ^ 31
    else u + 1 < 2 ^ 31 ∧ (u ≠ m + 1 → (cstr text).length + 1 < 2 ^ 31))

theorem wordEnd_le {text : Bytes} {k : Nat} (hk : k ≤ (cstr text).length) :
    wordEnd text k ≤ (cstr text).length := add_takeWhile_le_cstr rfl hk

theorem wordEnd_lt {text : Bytes} {k : Nat} (hk : k ≤ (cstr text).length)
    (hz : at' text (wordEnd text k) ≠ 0) : wordEnd text k < (cstr text).length :=
  Nat.lt_of_not_le (mt (at_zero_iff_length (wordEnd_le hk)).mpr hz)

/-- every line of fewer than `2 ^ 31 - 1` bytes -/
theorem counts_of_short {text : Bytes} (h : (cstr text).length + 1 < 2 ^ 31) (req : HttpRequest) :
    Counts text req := by
  have hm := wordEnd_le (Nat.zero_le (cstr text).length)
  unfold Counts
  dsimp only
  split
  · omega
  · rename_i hz
    have hlt := wordEnd_lt (Nat.zero_le _) hz
    have hu : wordEnd text (wordEnd text 0 + 1) ≤ (cstr text).length := wordEnd_le hlt
    refine ⟨by omega, fun _ => ?_⟩
    split
    · omega
    · exact ⟨by omega, fun _ => h⟩

theorem take_wordEnd (text : Bytes) (k : Nat) :
    (text.drop k).take (wordEnd text k - k) = (text.drop k).takeWhile inWord := by
  rw [wordEnd, Nat.add_sub_cancel_left]
  exact (takeWhile_eq_take inWord _).symm

section
variable {β : Type} {text : Bytes} (h : (0 : UInt8) ∈ text) {k : Nat}
  (hk : k ≤ (cstr text).length) (hint : k < 2 ^ 31)
include h hk hint

/-- a word and the blank behind it, with which `f` goes on -/
theorem word_spec {P : Prop} {e y : β} {f : Nat → Nat → Option β}
    (hf : wordEnd text k + 1 ≤ (cstr text).length → wordEnd text k + 1 < 2 ^ 31 →
      Checked P (f (wordEnd text k) (wordEnd text k + 1)) (some y)) :
    Checked
      (if at' text (wordEnd text k) = 0 then wordEnd text k < 2 ^ 31
        else wordEnd text k + 1 < 2 ^ 31 ∧ P)
      ((scanInt inWord (text.drop k) k).bind fun i => text[i]?.bind fun c =>
        if c = 0 then some e else (incr i).bind (f i))
      (some (if at' text (wordEnd text k) = 0 then e else y)) := by
  rw [scanInt_bind rfl h hk hint]
  change Checked _ (if wordEnd text k < 2 ^ 31 then if at' text (wordEnd text k) = 0 then some e
    else (incr (wordEnd text k)).bind (f (wordEnd text k)) else none) _
  rw [incr_bind]
  by_cases hz : at' text (wordEnd text k) = 0
  · rw [if_pos hz, if_pos hz, if_pos hz]
    exact (Checked.guard fun _ => Checked.refl (some e)).imp (by rw [and_true])
  · rw [if_neg hz, if_neg hz, if_neg hz]
    have hlt := Nat.succ_le_of_lt (wordEnd_lt hk hz)
    refine (Checked.guard fun _ => Checked.guard fun hc => hf hlt hc).imp ?_
    constructor
    · intro hc
      exact hc.2
    · intro hc
      exact ⟨by omega, hc⟩

/-- what is left up to the NUL -/
theorem toEnd_spec (f : Bytes → β) :
    Checked ((cstr text).length + 1 < 2 ^ 31)
      ((scanInt (· != 0) (text.drop k) k).bind fun i =>
        (incr i).bind fun _ => some (f ((text.drop k).take (i - k))))
      (some (f (cstr (text.drop k)))) := by
  have hlen : k + (cstr (text.drop k)).length = (cstr text).length := by
    rw [cstr_drop hk, List.length_drop]
    omega
  have htake : (text.drop k).take (k + (cstr (text.drop k)).length - k) = cstr (text.drop k) := by
    rw [Nat.add_sub_cancel_left]
    exact (takeWhile_eq_take _ _).symm
  rw [scanInt_eq rfl (zero_mem_drop h hk) hint]
  change Checked _ ((if k + (cstr (text.drop k)).length < 2 ^ 31 then
    some (k + (cstr (text.drop k)).length) else none).bind _) _
  by_cases hc : k + (cstr (text.drop k)).length < 2 ^ 31
  · rw [if_pos hc, Option.bind_some, incr_bind, htake]
    refine (Checked.guard fun _ => Checked.refl _).imp ?_
    rw [and_true, hlen]
  · rw [if_neg hc]
    exact ⟨fun hp => absurd hp (by omega), fun _ => rfl⟩

end

/-- `parseRequestLine` by the ends of its words -/
theorem parseRequestLine_wordEnd (text : Bytes) (req : HttpRequest) :
    parseRequestLine text req =
      if at' text (wordEnd text 0) = 0 then (.parseError, req)
      else match req.setMethod ((text.drop 0).takeWhile inWord) with
      | none => (.parseError, req)
      | some req =>
        if at' text (wordEnd text (wordEnd text 0 + 1)) = 0 then (.parseError, req)
        else match req.setUrl ((text.drop (wordEnd text 0 + 1)).takeWhile inWord) with
        | none => (.parseError, req)
        | some req =>
          match req.setVersion (cstr (text.drop (wordEnd text (wordEnd text 0 + 1) + 1))) with
          | none => (.parseError, req)
          | some req => (.parseNext, req) := by
  have hm : wordEnd text 0 = (text.takeWhile inWord).length := Nat.zero_add _
  rw [parseRequestLine, hm, List.drop_zero]
  simp only [at_drop, List.drop_drop, Nat.add_zero]
  rfl

theorem setUrl_eq_none {req : HttpRequest} {u : Bytes} : req.setUrl u = none ↔ u = [] := by
  rw [HttpRequest.setUrl]
  split
  · rename_i hu
    exact iff_of_true rfl hu
  · rename_i hu
    exact iff_of_false (Option.some_ne_none _) hu

/-- **`parse_request_line` stays in its line** exactly as long as an `int` counts it. -/
theorem parseRequestLineIn_spec {text : Bytes} (h : (0 : UInt8) ∈ text) (req : HttpRequest) :
    Checked (Counts text req) (parseRequestLineIn text req)
      (some (parseRequestLine text req)) := by
  have hmethod : text.take (wordEnd text 0) = (text.drop 0).takeWhile inWord :=
    take_wordEnd text 0
  rw [parseRequestLine_wordEnd]
  unfold parseRequestLineIn Counts
  dsimp only
  rw [hmethod]
  refine word_spec h (Nat.zero_le _) (Nat.two_pow_pos 31) fun hk hint => ?_
  rw [take_wordEnd]
  cases req.setMethod ((text.drop 0).takeWhile inWord) with
  | none => exact Checked.vacuous (fun hne => hne rfl) _
  | some req =>
    refine Checked.given (Option.some_ne_none _) (word_spec h hk hint fun hk' hint' => ?_)
    rw [take_wordEnd]
    cases hurl : req.setUrl ((text.drop (wordEnd text 0 + 1)).takeWhile inWord) with
    | none =>
      have hu := List.length_eq_zero_iff.mpr (setUrl_eq_none.mp hurl)
      refine Checked.vacuous (fun hne => hne ?_) _
      rw [wordEnd, hu, Nat.add_zero]
    | some req =>
      have hu : (text.drop (wordEnd text 0 + 1)).takeWhile inWord ≠ [] := by
        intro he
        rw [setUrl_eq_none.mpr he] at hurl
        cases hurl
      have hpos := List.length_pos_iff.mpr hu
      refine Checked.given (by unfold wordEnd at hpos ⊢; omega) ?_
      exact toEnd_spec h hk' hint' fun version =>
        (match req.setVersion version with
        | none => (.parseError, req)
        | some req => (.parseNext, req) : ParseStatus × HttpRequest)

/-! ## parse_headers and parse_content -/

def parseHeadersIn (text : Bytes) (req : HttpRequest) : Option (ParseStatus × HttpRequest) :=
  text[0]?.bind fun c =>
    if c = 0 then some (if req.contentLenth ≠ 0 then .parseNext else .parseEnd, req)
    else (Bounded.strncaseeq text contentLengthKey 15).bind fun hit =>
      if hit then
        let text := text.drop 15
        (Bounded.strspn text blanks).bind fun n =>
          let text := text.drop n
          -- the value is assigned as a C string
          (strlen text).bind fun len => (Bounded.atol text).bind fun v =>
            some (.parseRecv,
              { req with
                headers := req.headers.set (asc "Content-length") (text.take len)
                contentLenth := toSizeT v })
      else (Bounded.strspn text blanks).bind fun n =>
        let text := text.drop n
        (Bounded.strcspn text (asc " \t:")).bind fun keyLen =>
          if keyLen = 0 then some (.parseError, req)
          else (Bounded.strpbrk text (asc ":")).bind fun colon =>
            match colon with
            | none => some (.parseError, req)
            | some colon =>
              let key := text.take colon
              let text := text.drop (colon + 1)
              (Bounded.strspn text blanks).bind fun n =>
                let text := text.drop n
                (strlen text).bind fun len =>
                  some (.parseRecv, { req with headers := req.headers.set key (text.take len) })

theorem zero_mem_blanks {text : Bytes} (h : (0 : UInt8) ∈ text) :
    (0 : UInt8) ∈ text.drop (CStr.strspn text blanks) :=
  zero_mem_drop h (strspn_le text blanks)

theorem take_strlen (text : Bytes) : text.take (cstr text).length = cstr text :=
  (takeWhile_eq_take _ _).symm

theorem parseHeadersIn_eq {text : Bytes} (h : (0 : UInt8) ∈ text) (req : HttpRequest) :
    parseHeadersIn text req = some (parseHeaders text req) := by
  rw [parseHeadersIn, parseHeaders, getElem_of_le_cstr h (Nat.zero_le _), Option.bind_some]
  by_cases hz : at' text 0 = 0
  · rw [if_pos hz, if_pos hz]
  rw [if_neg hz, if_neg hz, strncaseeq_eq h, Option.bind_some]
  cases hkey : CStr.strncaseeq text contentLengthKey 15 with
  | true =>
    have h15 : 15 ≤ (cstr text).length := length_of_strncaseeq hkey (by decide)
    have h1 := zero_mem_drop h h15
    have h2 := zero_mem_blanks h1
    dsimp only
    rw [if_pos rfl, if_pos rfl, strspn_eq h1, Option.bind_some, strlen_eq h2, Option.bind_some,
      atol_eq h2, Option.bind_some, take_strlen]
  | false =>
    have h1 := zero_mem_blanks h
    dsimp only
    rw [if_neg Bool.false_ne_true, if_neg Bool.false_ne_true, strspn_eq h, Option.bind_some,
      strcspn_eq h1, Option.bind_some]
    by_cases hk : CStr.strcspn (text.drop (CStr.strspn text blanks)) (asc " \t:") = 0
    · rw [if_pos hk, if_pos hk]
    rw [if_neg hk, if_neg hk, strpbrk_eq h1, Option.bind_some]
    cases hc : CStr.strpbrk (text.drop (CStr.strspn text blanks)) (asc ":") with
    | none => rfl
    | some colon =>
      have h2 := zero_mem_drop h1 (k := colon + 1) (strpbrk_lt hc)
      have h3 := zero_mem_blanks h2
      dsimp only
      rw [strspn_eq h2, Option.bind_some, strlen_eq h3, Option.bind_some, take_strlen]

/-- `data` is all that may be read -/
def parseContentIn (data : Bytes) (len : Nat) (req : HttpRequest) :
    Option (ParseStatus × HttpRequest) :=
  if len ≥ req.contentLenth then
    if req.contentLenth ≤ data.length then
      some (.parseEnd, { req with contentData := req.contentData ++ data.take req.contentLenth })
    else none
  else some (.parseRecv, req)

theorem parseContentIn_eq (b : Buffer) (req : HttpRequest) :
    parseContentIn b.readable b.getReadableBytes req =
      some (parseContent b.peek b.getReadableBytes req) := by
  rw [parseContentIn, parseContent, ← b.length_readable]
  split
  · rename_i hge
    rw [b.peek_eq, List.take_append_of_le_length hge]
  · rfl

/-! ## parse_http -/

namespace HttpHandler

/-- the line that `parse_line` has found, with the first of its two NULs -/
def lineText (h : HttpHandler) (b : Buffer) : Bytes := b.readable.take (h.lineIndex - 1)

def dispatchIn (h : HttpHandler) (b : Buffer) : Option Round :=
  match h.checkState with
  | .requestline => do
    let (status, req) ← parseRequestLineIn (h.lineText b) h.req
    let b ← b.retrieve h.lineIndex
    let h := { h with req, lineIndex := 0 }
    if status = .parseError ∨ status = .parseEnd then return .ret status h b
    return .again { h with checkState := .header } b
  | .header => do
    let (status, req) ← parseHeadersIn (h.lineText b) h.req
    let b ← b.retrieve h.lineIndex
    let h := { h with req, lineIndex := 0 }
    if status = .parseRecv then return .again h b
    if status = .parseNext then return .again { h with checkState := .content } b
    return .ret status h b
  | .content => do
    let readableN := b.getReadableBytes
    let (status, req) ← parseContentIn b.readable readableN h.req
    let h := { h with req }
    if status = .parseRecv then return .ret .parseRecv h b
    let b ← if status = .parseEnd then b.retrieve readableN else some b
    if status = .parseError ∨ status = .parseEnd then return .ret status h b
    return .again h b

def roundIn (h : HttpHandler) (b : Buffer) : Option Round :=
  if h.checkState = .content then { h with lineState := .lineOk }.dispatchIn b
  else do
    let (lineState, lineIndex, b) ← parseLineIn h.lineIndex b
    let h := { h with lineState, lineIndex }
    match lineState with
    | .lineBad => return .ret .parseError h b
    | .lineOpen => return .ret .parseRecv h b
    | .lineOk => do
      -- the log line prints the text
      let _ ← strlen (h.lineText b)
      h.dispatchIn b

def roundsIn : Nat → HttpHandler → Buffer → Option (ParseStatus × HttpHandler × Buffer)
  | 0, h, b => some (.parseRecv, h, b)
  | k + 1, h, b =>
    match h.roundIn b with
    | none => none
    | some (.ret status h b) => some (status, h, b)
    | some (.again h b) => roundsIn k h b

def parseHttpIn (h : HttpHandler) (b : Buffer) : Option (ParseStatus × HttpHandler × Buffer) :=
  roundsIn (b.getReadableBytes + 1) h b

/-- a request line that the handler finds in the buffer can be counted -/
def Countable (h : HttpHandler) (b : Buffer) : Prop :=
  h.checkState = .requestline →
    ∀ l r, cut 13 10 b.readable = .line l r → Counts (l ++ [0]) h.req

end HttpHandler

theorem lineText_eq {h : HttpHandler} {b : Buffer} {l r : Bytes} (hl : h.lineIndex = l.length + 2)
    (hb : b.readable = l ++ 0 :: 0 :: r) : h.lineText b = l ++ [0] := by
  have hsplit : l ++ 0 :: 0 :: r = (l ++ [0]) ++ 0 :: r := by simp
  have hlen : l.length + 2 - 1 = (l ++ [0]).length := by simp
  rw [HttpHandler.lineText, hb, hl, hsplit, hlen, List.take_left]

theorem zero_mem_line (l : Bytes) : (0 : UInt8) ∈ l ++ [0] :=
  List.mem_append_right _ List.mem_cons_self

theorem dispatchIn_line {h : HttpHandler} {b : Buffer} {l r : Bytes} (hcs : h.checkState ≠ .content)
    (hl : h.lineIndex = l.length + 2) (hb : b.readable = l ++ 0 :: 0 :: r) :
    Checked (h.checkState = .requestline → Counts (l ++ [0]) h.req) (h.dispatchIn b)
      (h.dispatch b) := by
  have hcstr : cstr b.peek = cstr (l ++ [0]) := by
    rw [b.peek_eq, hb, List.append_assoc, List.cons_append, cstr_append_zero, cstr_append_zero]
  unfold HttpHandler.dispatchIn HttpHandler.dispatch
  cases hst : h.checkState with
  | content => exact absurd hst hcs
  | requestline =>
    dsimp only
    rw [lineText_eq hl hb, parseRequestLine_congr hcstr]
    exact ((parseRequestLineIn_spec (zero_mem_line l) h.req).given rfl).bind _
  | header =>
    dsimp only
    rw [lineText_eq hl hb, parseHeadersIn_eq (zero_mem_line l), parseHeaders_congr hcstr]
    exact Checked.vacuous (fun he => by cases he) _

theorem dispatchIn_content {h : HttpHandler} (b : Buffer) (hcs : h.checkState = .content) :
    h.dispatchIn b = h.dispatch b := by
  unfold HttpHandler.dispatchIn HttpHandler.dispatch
  rw [hcs]
  dsimp only
  rw [parseContentIn_eq]
  rfl

theorem countable_line {h : HttpHandler} {b : Buffer} {l r : Bytes}
    (hcut : cut 13 10 b.readable = .line l r) :
    h.Countable b ↔ (h.checkState = .requestline → Counts (l ++ [0]) h.req) := by
  constructor
  · intro hc hst
    exact hc hst l r hcut
  · intro hc hst l' r' hcut'
    obtain ⟨rfl, -⟩ := Cut.line.inj (hcut.symm.trans hcut')
    exact hc hst

theorem countable_noLine {h : HttpHandler} {b : Buffer}
    (hcut : ∀ l r, cut 13 10 b.readable ≠ .line l r) : h.Countable b :=
  fun _ l r he => absurd he (hcut l r)

theorem countable_later {h : HttpHandler} {b : Buffer} (hcs : h.checkState ≠ .requestline) :
    h.Countable b := fun he => absurd he hcs

theorem roundIn_spec {h : HttpHandler} {b : Buffer} (ht : Tracks h b) :
    Checked (h.Countable b) (h.roundIn b) (h.round b) := by
  unfold HttpHandler.roundIn HttpHandler.round
  by_cases hcs : h.checkState = .content
  · have hlater : h.checkState ≠ .requestline := by
      rw [hcs]
      exact RequestState.noConfusion
    rw [if_pos hcs, if_pos hcs, dispatchIn_content (h := { h with lineState := .lineOk }) b hcs]
    exact (Checked.refl _).imp (iff_of_true trivial (countable_later hlater))
  · obtain ⟨status, i, b', hline, hspec⟩ := parseLine_spec (ht hcs)
    unfold LineSpec at hspec
    rw [if_neg hcs, if_neg hcs, parseLineIn_eq (ht hcs), hline]
    cases hcut : cut 13 10 b.readable with
    | more =>
      rw [hcut] at hspec
      obtain ⟨rfl, rfl, -⟩ := hspec
      have hc : h.Countable b' := countable_noLine fun l r he => by rw [hcut] at he; cases he
      exact (Checked.refl _).imp (iff_of_true trivial hc)
    | bad =>
      rw [hcut] at hspec
      obtain ⟨rfl, rfl, -⟩ := hspec
      have hc : h.Countable b' := countable_noLine fun l r he => by rw [hcut] at he; cases he
      exact (Checked.refl _).imp (iff_of_true trivial hc)
    | line l r =>
      rw [hcut] at hspec
      obtain ⟨rfl, hb', rfl⟩ := hspec
      have hd := dispatchIn_line (h := { h with lineState := .lineOk, lineIndex := l.length + 2 })
        hcs rfl hb'
      have htext : HttpHandler.lineText
          { h with lineState := .lineOk, lineIndex := l.length + 2 } b' = l ++ [0] :=
        lineText_eq rfl hb'
      refine Checked.imp (countable_line hcut).symm ?_
      show Checked _ ((strlen (HttpHandler.lineText
        { h with lineState := .lineOk, lineIndex := l.length + 2 } b')).bind fun _ => _) _
      rw [htext, strlen_eq (zero_mem_line l)]
      exact hd

theorem textStep_take {p q : Parse} {s : Bytes} {n : Nat} (h : textStep p s = .take n q) :
    q.1 ≠ .requestline := by
  by_cases hcs : p.1 = .content
  · rw [textStep_content hcs] at h
    split at h
    · cases h
    · cases h
  cases hcut : cut 13 10 s with
  | more =>
    rw [textStep_more hcs hcut] at h
    cases h
  | bad =>
    rw [textStep_bad hcs hcut] at h
    cases h
  | line l r =>
    rw [textStep_line hcs hcut] at h
    unfold lineVerdict at h
    cases hst : p.1 with
    | content => exact absurd hst hcs
    | requestline =>
      rw [hst] at h
      dsimp only at h
      split at h
      · cases h
      · cases h
        exact RequestState.noConfusion
    | header =>
      rw [hst] at h
      dsimp only at h
      split at h
      · cases h
        exact RequestState.noConfusion
      · split at h
        · cases h
          exact RequestState.noConfusion
        · cases h

/-- a round that goes on leaves the request line behind -/
theorem round_again {h h' : HttpHandler} {b b' : Buffer} (ht : Tracks h b)
    (hr : h.round b = some (.again h' b')) : Tracks h' b' ∧ h'.checkState ≠ .requestline := by
  obtain ⟨rd, hrd, hob⟩ := round_spec ht
  obtain rfl := Option.some.inj (hr.symm.trans hrd)
  cases hv : textStep (h.checkState, h.req) b.readable with
  | more =>
    rw [hv] at hob
    obtain ⟨_, _, he, -⟩ := hob
    cases he
  | stop status n p =>
    rw [hv] at hob
    obtain ⟨_, _, he, -⟩ := hob
    cases he
  | take n p =>
    rw [hv] at hob
    obtain ⟨_, _, he, hf⟩ := hob
    cases he
    have hp := textStep_take hv
    rw [← hf.state] at hp
    exact ⟨hf.tracks, hp⟩

/-- behind the request line no round fails -/
theorem roundsIn_later (k : Nat) {h : HttpHandler} {b : Buffer} (ht : Tracks h b)
    (hcs : h.checkState ≠ .requestline) : h.roundsIn k b = h.rounds k b := by
  induction k generalizing h b with
  | zero => rfl
  | succ k ih =>
    rw [HttpHandler.roundsIn, HttpHandler.rounds, (roundIn_spec ht).1 (countable_later hcs)]
    cases hr : h.round b with
    | none => rfl
    | some rd =>
      cases rd with
      | ret status h' b' => rfl
      | again h' b' =>
        obtain ⟨ht', hcs'⟩ := round_again ht hr
        exact ih ht' hcs'

/-- **Only the `int` can go wrong**: the checked parser is the parser as long as it counts the
request line, and fails otherwise. -/
theorem parseHttpIn_spec {h : HttpHandler} {b : Buffer} (ht : Tracks h b) :
    Checked (h.Countable b) (h.parseHttpIn b) (h.parseHttp b) := by
  have hround := roundIn_spec ht
  rw [HttpHandler.parseHttpIn, HttpHandler.parseHttp, HttpHandler.roundsIn, HttpHandler.rounds]
  constructor
  · intro hc
    rw [hround.1 hc]
    cases hr : h.round b with
    | none => rfl
    | some rd =>
      cases rd with
      | ret status h' b' => rfl
      | again h' b' =>
        obtain ⟨ht', hcs'⟩ := round_again ht hr
        exact roundsIn_later _ ht' hcs'
  · intro hc
    rw [hround.2 hc]

/-! ## runs -/

/-- one handler with its buffer, and what `parse_http` returned last -/
structure Parsing where
  handler : HttpHandler
  buffer : Buffer
  returned : ParseStatus

namespace Parsing

inductive Act where
  | append (chunk : Bytes)
  | parse

def start (router : Option Router) (m : HttpMethod) (c : HttpStatus) : Parsing where
  handler := (HttpHandler.fresh m c).init router
  buffer := .new
  returned := .parseRecv

def exec (p : Parsing) : Act → Option Parsing
  | .append chunk => some { p with buffer := p.buffer.append chunk }
  | .parse => (p.handler.parseHttpIn p.buffer).map fun (returned, handler, buffer) =>
      { handler, buffer, returned }

/-- nothing follows a step that has failed -/
inductive Step : Option Parsing → Act → Option Parsing → Prop where
  | mk (p : Parsing) (a : Act) : Step (some p) a (p.exec a)

/-- `HttpServer::on_recv` for the handler and the buffer, on a connection `sock` -/
def onRecv (p : Parsing) (sock : Sock) (n : Int) : Visit :=
  HttpConn.onRecv (HttpConn.parsed { sock, handler := p.handler } p.handler p.buffer) n

/-- the step reads inside the buffer and fails no assertion, `PARSE_NEXT` is not returned, and
`on_recv` has no inner error to report -/
def Inside (e : Tr (Option Parsing) Act) : Prop :=
  ∃ p q, e.pre = some p ∧ e.post = some q ∧ q.returned ≠ .parseNext ∧
    ∀ sock n, (p.onRecv sock n).status ≠ some .parseNext

/-- a request line that `parse_http` finds can be counted by an `int` -/
def CountsLine (x : Option Parsing) : Act → Prop
  | .append _ => True
  | .parse => ∀ p, x = some p → p.handler.Countable p.buffer

def Sound (x : Option Parsing) : Prop :=
  ∃ p, x = some p ∧ Tracks p.handler p.buffer ∧ p.returned ≠ .parseNext

theorem statusOf_ne_next {p p' : Parse} {s rest : Bytes} {o : Option ParseStatus}
    (h : run textStep p s = (o, p', rest)) : statusOf o ≠ .parseNext := by
  cases o with
  | none => exact ParseStatus.noConfusion
  | some status =>
    rcases run_status h with rfl | rfl
    · exact ParseStatus.noConfusion
    · exact ParseStatus.noConfusion

theorem parseHttp_sound {h : HttpHandler} {b : Buffer} (ht : Tracks h b) :
    ∃ status h' b', h.parseHttp b = some (status, h', b') ∧ status ≠ .parseNext ∧ Tracks h' b' := by
  obtain ⟨h', b', hrun, hf⟩ := parseHttp_spec ht
  exact ⟨_, h', b', hrun, statusOf_ne_next rfl, hf.tracks⟩

theorem onRecv_status {c : HttpConn} (ht : Tracks c.handler c.sock.conn.inBuffer) (n : Int) :
    (c.onRecv n).status ≠ some .parseNext := by
  obtain ⟨status, h', b', hrun, hne, -⟩ := parseHttp_sound ht
  rw [HttpConn.onRecv, hrun]
  cases status with
  | parseNext => exact absurd rfl hne
  | parseRecv => exact fun he => ParseStatus.noConfusion (Option.some.inj he)
  | parseEnd => exact fun he => ParseStatus.noConfusion (Option.some.inj he)
  | parseError =>
    dsimp only [HttpConn.decided]
    split
    · exact fun he => ParseStatus.noConfusion (Option.some.inj he)
    · exact fun he => ParseStatus.noConfusion (Option.some.inj he)

theorem sound_step {x y : Option Parsing} {a : Act} (hx : Sound x) (h : Step x a y) :
    (Inside ⟨x, a, y⟩ ↔ CountsLine x a) ∧ (CountsLine x a → Sound y) := by
  cases h with
  | mk p a =>
    obtain ⟨p', hp, ht, hne⟩ := hx
    obtain rfl := Option.some.inj hp
    cases a with
    | append chunk =>
      have hin : Inside ⟨some p, .append chunk, p.exec (.append chunk)⟩ :=
        ⟨p, _, rfl, rfl, hne, fun _ n => onRecv_status ht n⟩
      exact ⟨iff_of_true hin trivial, fun _ => ⟨_, rfl, ht.append chunk, hne⟩⟩
    | parse =>
      have hspec := parseHttpIn_spec ht
      by_cases hc : p.handler.Countable p.buffer
      · obtain ⟨status, h', b', hrun, hstatus, ht'⟩ := parseHttp_sound ht
        have hexec : p.exec .parse = some ⟨h', b', status⟩ := by
          rw [exec, hspec.1 hc, hrun]
          rfl
        have hcount : CountsLine (some p) .parse := by
          intro q hq
          obtain rfl := Option.some.inj hq
          exact hc
        have hin : Inside ⟨some p, .parse, p.exec .parse⟩ :=
          ⟨p, _, rfl, hexec, hstatus, fun _ n => onRecv_status ht n⟩
        exact ⟨iff_of_true hin hcount, fun _ => ⟨_, hexec, ht', hstatus⟩⟩
      · have hexec : p.exec .parse = none := by
          rw [exec, hspec.2 hc]
          rfl
        have hcount : ¬CountsLine (some p) .parse := fun hcount => hc (hcount p rfl)
        have hin : ¬Inside ⟨some p, .parse, p.exec .parse⟩ := by
          rintro ⟨_, q, -, hq, -⟩
          rw [hexec] at hq
          cases hq
        exact ⟨iff_of_false hin hcount, fun hcount' => absurd hcount' hcount⟩

theorem sound_start (router : Option Router) (m : HttpMethod) (c : HttpStatus) :
    Sound (some (start router m c)) := ⟨_, rfl, tracks_zero _ _ rfl, ParseStatus.noConfusion⟩

/-- **The parser stays inside its buffer** exactly in the runs in which every request line can be
counted by an `int`. -/
theorem inside_iff (router : Option Router) (m : HttpMethod) (c : HttpStatus)
    {tr : List (Tr (Option Parsing) Act)} (h : Path Step (some (start router m c)) tr) :
    (∀ e ∈ tr, Inside e) ↔ ∀ e ∈ tr, CountsLine e.pre e.act :=
  h.all_iff (fun _ _ _ hx hst => sound_step hx hst) (sound_start router m c)

/-- a request in one chunk -/
theorem inside_get : ∃ tr, Path Step (some (start none .get 0)) tr ∧
    tr.map Tr.act = [.append (asc "GET / HTTP/1.1\r\n\r\n"), .parse] ∧ ∀ e ∈ tr, Inside e := by
  let request := asc "GET / HTTP/1.1\r\n\r\n"
  let p : Parsing := { start none .get 0 with buffer := Buffer.new.append request }
  have hpath : Path Step (some (start none .get 0))
      [⟨_, .append request, some p⟩, ⟨some p, .parse, p.exec .parse⟩] :=
    .cons (.mk _ _) (.cons (.mk _ _) (.nil _))
  have hcut : cut 13 10 p.buffer.readable = .line (asc "GET / HTTP/1.1") [13, 10] := by
    rw [Buffer.readable_append, Buffer.readable_new]
    decide
  have hcount : p.handler.Countable p.buffer :=
    (countable_line hcut).mpr fun _ => counts_of_short (by decide) _
  refine ⟨_, hpath, rfl, (inside_iff none .get 0 hpath).mpr ?_⟩
  intro e he
  rcases List.mem_pair.mp he with rfl | rfl
  · trivial
  · intro q hq
    obtain rfl := Option.some.inj hq
    exact hcount

/-- `n` bytes that no `int` counts, none of them a blank -/
theorem not_countable {h : HttpHandler} {b : Buffer} {n : Nat} (hn : 2 ^ 31 ≤ n)
    (hcs : h.checkState = .requestline) (hb : b.readable = List.replicate n 65 ++ 13 :: 10 :: []) :
    ¬h.Countable b := by
  have hclean : Clean 13 10 (List.replicate n (65 : UInt8)) := by
    intro c hc
    rw [List.eq_of_mem_replicate hc]
    decide
  have hcut := cut_line 13 10 hclean []
  rw [← hb] at hcut
  have hword : ∀ c ∈ List.replicate n (65 : UInt8), inWord c = true := by
    intro c hc
    rw [List.eq_of_mem_replicate hc]
    rfl
  have hend : wordEnd (List.replicate n 65 ++ [0]) 0 = n := by
    rw [wordEnd, List.drop_zero, List.takeWhile_append_of_pos hword, List.length_append,
      List.length_replicate, Nat.zero_add]
    rfl
  have hz : at' (List.replicate n 65 ++ [0]) n = 0 := by
    have h := at_append_right (List.replicate n 65) [0] 0
    rw [List.length_replicate] at h
    exact h
  intro hc
  have hlt := (countable_line hcut).mp hc hcs
  unfold Counts at hlt
  dsimp only at hlt
  rw [hend, if_pos hz] at hlt
  omega

theorem long_line {n : Nat} (hn : 2 ^ 31 ≤ n) :
    ∃ tr, Path Step (some (start none .get 0)) tr ∧ ∃ e ∈ tr, ¬Inside e := by
  let chunk := List.replicate n (65 : UInt8) ++ 13 :: 10 :: []
  let p : Parsing := { start none .get 0 with buffer := Buffer.new.append chunk }
  have hpath : Path Step (some (start none .get 0))
      [⟨_, .append chunk, some p⟩, ⟨some p, .parse, p.exec .parse⟩] :=
    .cons (.mk _ _) (.cons (.mk _ _) (.nil _))
  have hb : p.buffer.readable = chunk := by
    rw [Buffer.readable_append, Buffer.readable_new, List.nil_append]
  have hsound : Sound (some p) :=
    (sound_step (sound_start none .get 0) (.mk _ (.append chunk))).2 trivial
  have hcount : ¬CountsLine (some p) .parse := by
    intro hc
    exact not_countable hn rfl hb (hc p rfl)
  have hlast : (⟨some p, .parse, p.exec .parse⟩ : Tr (Option Parsing) Act) ∈
      [⟨some (start none .get 0), .append chunk, some p⟩, ⟨some p, .parse, p.exec .parse⟩] :=
    List.mem_cons_of_mem _ List.mem_cons_self
  exact ⟨_, hpath, _, hlast, mt (sound_step hsound (.mk p .parse)).1.mp hcount⟩

/-- a request line of `2 ^ 31` bytes without a blank -/
theorem not_inside : ¬∀ tr, Path Step (some (start none .get 0)) tr → ∀ e ∈ tr, Inside e := by
  intro hall
  obtain ⟨n, hn⟩ : ∃ n, 2 ^ 31 ≤ n := ⟨_, Nat.le_refl _⟩
  obtain ⟨tr, hpath, e, he, hout⟩ := long_line hn
  exact hout (hall tr hpath e he)

end Parsing

end Feipu
