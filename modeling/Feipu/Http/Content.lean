import Feipu.Http.HttpMsg

/-!
# The length of a body

The body, the header "Content-length" and `content_lenth` say one thing three times.  `setContent`
adds to the body, replaces the header by the length of what it has added, and leaves `content_lenth`
alone.

* `content_length_iff`   after any calls of `setContent` the three agree exactly when `content_lenth`
                         was right already and the last call has brought the whole body.
-/

namespace Feipu
open CStr

/-- an object of one of the two classes of messages -/
inductive Message where
  | request (r : HttpRequest)
  | response (r : HttpResponse)

namespace Message

def toHttpMsg : Message → HttpMsg
  | request r => r.toHttpMsg
  | response r => r.toHttpMsg

/-- `setContent`; both overloads append the bytes they are given -/
def setContent : Message → Bytes → Message
  | request r, inData => request { r with toHttpMsg := r.toHttpMsg.setContent inData }
  | response r, inData => response { r with toHttpMsg := r.toHttpMsg.setContent inData }

/-- the virtual `Dump`; `none` is an exception -/
def dump (isDumpHeaders isDumpBody : Bool) : Message → Option Bytes
  | request r => r.dump isDumpHeaders isDumpBody
  | response r => some (r.dump isDumpHeaders isDumpBody)

def setContents (m : Message) (calls : List Bytes) : Message := calls.foldl setContent m

/-- the message is written as `front`, up to its blank line, and a body of the length that
"Content-length" and `content_lenth` give -/
def Measured (m : Message) (front dumped : Bytes) : Prop :=
  ∃ body, dumped = front ++ body ∧
    (asc "Content-length", decimal body.length) ∈ m.toHttpMsg.headers.entries ∧
    m.toHttpMsg.contentLenth = body.length

/-- the header after the calls gives the length `n` -/
def GivesLength (m : Message) (calls : List Bytes) (n : Nat) : Prop :=
  match calls.getLast? with
  | none => (asc "Content-length", decimal n) ∈ m.toHttpMsg.headers.entries
  | some last => last.length = n

theorem toHttpMsg_setContent (m : Message) (inData : Bytes) :
    (m.setContent inData).toHttpMsg = m.toHttpMsg.setContent inData := by
  cases m <;> rfl

/-- the body grows, and `content_lenth` stays -/
theorem setContents_body (m : Message) (calls : List Bytes) :
    (m.setContents calls).toHttpMsg.contentData = m.toHttpMsg.contentData ++ calls.flatten ∧
      (m.setContents calls).toHttpMsg.contentLenth = m.toHttpMsg.contentLenth := by
  induction calls generalizing m with
  | nil => exact ⟨(List.append_nil _).symm, rfl⟩
  | cons inData calls ih =>
    obtain ⟨hdata, hlen⟩ := ih (m.setContent inData)
    rw [toHttpMsg_setContent] at hdata hlen
    refine ⟨hdata.trans ?_, hlen⟩
    rw [List.flatten_cons, ← List.append_assoc]
    rfl

/-- the header is that of the last call -/
theorem mem_setContents_iff (m : Message) (calls : List Bytes) (n : Nat) :
    (asc "Content-length", decimal n) ∈ (m.setContents calls).toHttpMsg.headers.entries ↔
      m.GivesLength calls n := by
  unfold GivesLength
  rcases List.eq_nil_or_concat calls with rfl | ⟨calls, last, rfl⟩
  · rfl
  · rw [List.concat_eq_append, List.getLast?_concat]
    have hlast : m.setContents (calls ++ [last]) = (m.setContents calls).setContent last :=
      List.foldl_concat ..
    rw [hlast, toHttpMsg_setContent]
    show _ ∈ (SMap.set _ _ _).entries ↔ last.length = n
    rw [SMap.mem_set_iff]
    constructor
    · rintro (heq | ⟨-, hne⟩)
      · exact (decimal_inj (congrArg Prod.snd heq)).symm
      · exact absurd rfl hne
    · rintro rfl
      exact .inl rfl

/-- what `Dump` writes after the blank line is the body -/
theorem dump_body {m : Message} {front dumped : Bytes} (hf : m.dump true false = some front)
    (hd : m.dump true true = some dumped) : dumped = front ++ m.toHttpMsg.contentData := by
  have hmsg : ∀ r : HttpMsg, r.dump true true = r.dump true false ++ r.contentData := by
    intro r
    show r.dumpHeaders ++ crlf ++ r.contentData = r.dumpHeaders ++ crlf ++ [] ++ r.contentData
    rw [List.append_nil]
  cases m with
  | request r =>
    have hf : (stringFormat _).bind _ = some front := hf
    have hd : (stringFormat _).bind _ = some dumped := hd
    obtain ⟨line, hline, hfront⟩ := Option.bind_eq_some_iff.mp hf
    obtain ⟨line', hline', hdumped⟩ := Option.bind_eq_some_iff.mp hd
    obtain rfl := Option.some.inj (hline.symm.trans hline')
    rw [← Option.some.inj hfront, ← Option.some.inj hdumped, hmsg, ← List.append_assoc]
    rfl
  | response r =>
    rw [← Option.some.inj hf, ← Option.some.inj hd, HttpResponse.dump, hmsg, ← List.append_assoc]
    rfl

/-- **The length of the body** is written right exactly when `content_lenth` was that length already
and the last call has brought all of the body. -/
theorem content_length_iff (m : Message) (calls : List Bytes) {front dumped : Bytes}
    (hf : (m.setContents calls).dump true false = some front)
    (hd : (m.setContents calls).dump true true = some dumped) :
    (m.setContents calls).Measured front dumped ↔
      m.toHttpMsg.contentLenth = m.toHttpMsg.contentData.length + calls.flatten.length ∧
        m.GivesLength calls (m.toHttpMsg.contentData.length + calls.flatten.length) := by
  obtain ⟨hdata, hlen⟩ := setContents_body m calls
  rw [← List.length_append, ← hdata, ← mem_setContents_iff, ← hlen]
  constructor
  · rintro ⟨body, heq, hheader, hbody⟩
    obtain rfl : _ = body := List.append_cancel_left ((dump_body hf hd).symm.trans heq)
    exact ⟨hbody, hheader⟩
  · rintro ⟨hbody, hheader⟩
    exact ⟨_, dump_body hf hd, hheader, hbody⟩

/-- a message as its constructor leaves it -/
structure Empty (m : Message) : Prop where
  contentData : m.toHttpMsg.contentData = []
  contentLenth : m.toHttpMsg.contentLenth = 0
  noLength : ∀ v, (asc "Content-length", v) ∉ m.toHttpMsg.headers.entries

/-- of an empty message the length is written right exactly when there is a call, and no call brings
a byte -/
theorem Empty.givesLength_iff {m : Message} (h : m.Empty) (calls : List Bytes) :
    m.toHttpMsg.contentLenth = m.toHttpMsg.contentData.length + calls.flatten.length ∧
        m.GivesLength calls (m.toHttpMsg.contentData.length + calls.flatten.length) ↔
      calls ≠ [] ∧ ∀ inData ∈ calls, inData = [] := by
  rw [h.contentLenth, h.contentData, List.length_nil, Nat.zero_add]
  have hflat : 0 = calls.flatten.length ↔ ∀ inData ∈ calls, inData = [] := by
    rw [eq_comm, List.length_eq_zero_iff, List.flatten_eq_nil_iff]
  rw [hflat, and_comm]
  refine and_congr_left fun hall => ?_
  unfold GivesLength
  rcases List.eq_nil_or_concat calls with rfl | ⟨calls, last, rfl⟩
  · exact iff_of_false (h.noLength _) fun hne => hne rfl
  · rw [List.concat_eq_append, List.getLast?_concat]
    rw [List.concat_eq_append] at hall hflat
    refine iff_of_true ?_ (List.append_ne_nil_of_right_ne_nil _ (List.cons_ne_nil _ _))
    have hlast : last.length = 0 := by
      rw [hall last (List.mem_append_right _ List.mem_cons_self), List.length_nil]
    exact hlast.trans (hflat.mpr hall)

/-- a new response -/
def okResponse : Message := response (HttpResponse.new 200)

/-- one call with an empty body -/
theorem content_length_empty : ∃ front dumped,
    (okResponse.setContents [[]]).dump true false = some front ∧
      (okResponse.setContents [[]]).dump true true = some dumped ∧
      (okResponse.setContents [[]]).Measured front dumped :=
  ⟨_, _, rfl, rfl, (content_length_iff okResponse [[]] rfl rfl).mpr ⟨rfl, rfl⟩⟩

/-- a body brought in two calls: "Content-length" gives the length of the second, and
`content_lenth` is 0 -/
theorem content_length_two : ∃ front dumped,
    (okResponse.setContents [asc "a", asc "bc"]).dump true false = some front ∧
      (okResponse.setContents [asc "a", asc "bc"]).dump true true = some dumped ∧
      ¬ (okResponse.setContents [asc "a", asc "bc"]).Measured front dumped := by
  refine ⟨_, _, rfl, rfl, ?_⟩
  rintro ⟨body, heq, -, hlen⟩
  have hbody := dump_body (m := okResponse.setContents [asc "a", asc "bc"]) rfl rfl
  obtain rfl : asc "abc" = body := List.append_cancel_left (hbody.symm.trans heq)
  cases hlen

end Message

end Feipu
