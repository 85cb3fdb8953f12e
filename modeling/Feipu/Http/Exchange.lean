import Feipu.Http.Answer

/-!
# A request and its response

A client sends a request as `HttpRequest::Dump` writes it, in any pieces and with anything after it.

* `replies_request`   it gets the response that `deal` makes of just that request;
* `dump_plain_inj`    the bytes of a response with plain headers tell its status, its headers and its
                      body.
-/

namespace Feipu
open CStr Lines Consume Trace

/-! ## what a parsed request holds -/

/-- the state of the parser before a body -/
structure Clear (p : Parse) : Prop where
  version : p.1 ≠ .requestline → p.2.version = asc "HTTP/1.1"
  pathMatches : p.2.pathMatches = .empty
  contentData : p.2.contentData = []

/-- a request that has been parsed to its end -/
structure Complete (req : HttpRequest) : Prop where
  version : req.version = asc "HTTP/1.1"
  pathMatches : req.pathMatches = .empty
  contentLenth : req.contentLenth = req.contentData.length

theorem clear_new (m : HttpMethod) : Clear (.requestline, .new m) where
  version h := absurd rfl h
  pathMatches := rfl
  contentData := rfl

/-- a line that is no end of the parse -/
theorem clear_lineVerdict {p q : Parse} {l : Bytes} {n k : Nat} (hp : Clear p)
    (hv : lineVerdict p.1 (cstr l) p.2 n = .take k q) : Clear q := by
  rcases p with ⟨cs, req⟩
  have h0 := zero_notMem_cstr l
  cases cs with
  | content => cases hv
  | requestline =>
    by_cases hl : RequestLine (cstr l)
    · obtain ⟨w, u, hw, hu, hu32, heq⟩ := hl
      rw [heq] at hv h0
      have hw0 : 0 ∉ w := fun hx => h0 (List.mem_append_left _ hx)
      have hu0 : 0 ∉ u := fun hx => h0 (by simp [hx])
      simp only [lineVerdict, parseRequestLine_eq hw hw0 hu hu0 hu32] at hv
      cases hv
      exact ⟨fun _ => rfl, hp.pathMatches, hp.contentData⟩
    · simp only [lineVerdict, parseRequestLine_bad h0 hl, true_or, if_true] at hv
      cases hv
  | header =>
    have hversion : req.version = asc "HTTP/1.1" := hp.version fun h => (by cases h)
    by_cases hne : cstr l = []
    · rw [show lineVerdict _ _ _ _ = _ from blank_verdict hne req n] at hv
      split at hv
      · cases hv
      · cases hv
        exact ⟨fun _ => hversion, hp.pathMatches, hp.contentData⟩
    · by_cases hl : HeaderLine (cstr l)
      · obtain ⟨key, value, hs⟩ := gives_of_headerLine hl
        simp only [lineVerdict, parseHeaders_eq h0 hs, if_true] at hv
        cases hv
        exact ⟨fun _ => hversion, hp.pathMatches, hp.contentData⟩
      · simp only [lineVerdict, (parseHeaders_line h0 hne req).2 hl] at hv
        cases hv

theorem clear_textStep {p q : Parse} {s : Bytes} {n : Nat} (hp : Clear p)
    (hv : textStep p s = .take n q) : Clear q := by
  by_cases hcs : p.1 = .content
  · rw [textStep_content hcs] at hv
    split at hv <;> cases hv
  · cases hcut : cut 13 10 s with
    | more =>
      rw [textStep_more hcs hcut] at hv
      cases hv
    | bad =>
      rw [textStep_bad hcs hcut] at hv
      cases hv
    | line l r =>
      rw [textStep_line hcs hcut] at hv
      exact clear_lineVerdict hp hv

/-- the end of a parse: a body, or the blank line of a request without one -/
theorem complete_textStep {p q : Parse} {s : Bytes} {n : Nat} (hp : Clear p)
    (hv : textStep p s = .stop .parseEnd n q) : Complete q.2 := by
  by_cases hcs : p.1 = .content
  · rw [textStep_content hcs] at hv
    split at hv
    · rename_i hlen
      cases hv
      refine ⟨hp.version (by rw [hcs]; decide), hp.pathMatches, ?_⟩
      show p.2.contentLenth = (p.2.contentData ++ s.take p.2.contentLenth).length
      rw [hp.contentData, List.nil_append, List.length_take, Nat.min_eq_left hlen]
    · cases hv
  · cases hcut : cut 13 10 s with
    | more =>
      rw [textStep_more hcs hcut] at hv
      cases hv
    | bad =>
      rw [textStep_bad hcs hcut] at hv
      cases hv
    | line l r =>
      rw [textStep_line hcs hcut] at hv
      rcases p with ⟨cs, req⟩
      have h0 := zero_notMem_cstr l
      cases cs with
      | content => exact absurd rfl hcs
      | requestline =>
        exfalso
        by_cases hl : RequestLine (cstr l)
        · obtain ⟨req', -, htake⟩ := request_verdict hl req (l.length + 2)
          rw [show lineVerdict _ _ _ _ = _ from htake] at hv
          cases hv
        · simp only [lineVerdict, parseRequestLine_bad h0 hl, true_or, if_true] at hv
          cases hv
      | header =>
        by_cases hne : cstr l = []
        · rw [show lineVerdict _ _ _ _ = _ from blank_verdict hne req (l.length + 2)] at hv
          split at hv
          · rename_i hz
            cases hv
            refine ⟨hp.version fun h => (by cases h), hp.pathMatches, ?_⟩
            show req.contentLenth = req.contentData.length
            rw [hz, show req.contentData = [] from hp.contentData]
            rfl
          · cases hv
        · exfalso
          by_cases hl : HeaderLine (cstr l)
          · obtain ⟨req', -, htake⟩ := header_verdict hne hl req (l.length + 2)
            rw [show lineVerdict _ _ _ _ = _ from htake] at hv
            cases hv
          · simp only [lineVerdict, (parseHeaders_line h0 hne req).2 hl] at hv
            cases hv

/-- **Every request that is handled is complete**: it has the version, a body of the length
announced, and no captures. -/
theorem run_complete {p q : Parse} {s rest : Bytes} (hp : Clear p)
    (h : run textStep p s = (some .parseEnd, q, rest)) : Complete q.2 := by
  induction p, s using run_induction stable_textStep with
  | more p s hv =>
    rw [run_more hv] at h
    cases h
  | stop p s o n q' hv =>
    rw [run_stop hv] at h
    cases h
    exact complete_textStep hp hv
  | take p s n q' hv ih =>
    rw [run_take stable_textStep hv] at h
    exact ih (clear_textStep hp hv) h

/-! ## the request that arrives -/

/-- what the server makes of a request that has been sent -/
def received (r : HttpRequest) : HttpRequest where
  method := r.method
  path := r.path
  headers := r.headers
  contentData := r.contentData
  version := asc "HTTP/1.1"
  contentLenth := r.contentData.length

theorem withBody_keeps (r : HttpRequest) (body : Option Bytes) :
    (r.withBody body).method = r.method ∧ (r.withBody body).path = r.path := by
  cases body <;> exact ⟨rfl, rfl⟩

/-- the run over a serialised request and what follows it -/
theorem run_received {r : HttpRequest} (hr : Sendable r) {body : Option Bytes}
    (hbody : ∀ d ∈ body, d.length ≤ maxSize) {s : Bytes}
    (hs : (r.withBody body).dump true true = some s) (m : HttpMethod) (t : Bytes) :
    ∃ q rest, run textStep (.requestline, .new m) (s ++ t) = (some .parseEnd, q, rest) ∧
      q.2 = received (r.withBody body) := by
  obtain ⟨q, rest, hrun, hmethod, hpath, hheaders, hdata⟩ := run_dump hr hbody hs m
  have hc := run_complete (clear_new m) hrun
  obtain ⟨rest', hrun'⟩ := run_append_of_some stable_textStep t _ s hrun
  obtain ⟨hmethod', hpath'⟩ := withBody_keeps r body
  refine ⟨q, rest', hrun', ?_⟩
  rcases hq : q.2 with ⟨⟨headers, version, contentData, contentLenth⟩, path, pathMatches, method⟩
  rw [hq] at hmethod hpath hheaders hdata hc
  obtain ⟨hv, hm, hl⟩ := hc
  dsimp only at hmethod hpath hheaders hdata hv hm hl
  rw [received, ← hheaders, ← hdata, hmethod', hpath', ← hmethod, ← hpath, hv, hm, hl]

/-- **The client gets the response to its request**, whatever the pieces in which the request
arrives, and whatever comes after it. -/
theorem replies_request {r : HttpRequest} (hr : Sendable r) {body : Option Bytes}
    (hbody : ∀ d ∈ body, d.length ≤ maxSize) {s : Bytes}
    (hs : (r.withBody body).dump true true = some s) (router : Option Router) (m : HttpMethod)
    (status : HttpStatus) {tr : List (Tr (Except Fatal HttpConn) HttpConn.Act)} {c : HttpConn}
    {t : Bytes} (h : Path HttpConn.Step (.ok (HttpConn.onConnect router m status)) tr)
    (hlast : last (.ok (HttpConn.onConnect router m status)) tr = .ok c)
    (hread : HttpConn.delivered (tr.map Tr.act) = s ++ t) :
    (c.sock.sent = replyTo router (received (r.withBody body)) (.new status) ∨
        c.sock.sent = [] ∧ ∃ e ∈ tr, HttpConn.FailsWrite e.act) ∧
      c.sock.conn.outBuffer.readable = [] ∧ c.sock.halfClosed = true := by
  obtain ⟨hacc, hpending, hsent, hhalf⟩ := HttpConn.served_path router m status h hlast
  rw [hread] at hacc hhalf
  obtain ⟨q, rest, hrun, hq⟩ := run_received hr hbody hs m t
  rw [reply_of_end hrun, hq] at hacc
  refine ⟨?_, hpending, hhalf.mpr ?_⟩
  · rw [← hacc]
    exact hsent
  · rw [hrun]
    exact fun h => (by cases h)

/-- `GET /`, without headers and body -/
def getSlash : HttpRequest where
  method := .get
  path := asc "/"

theorem sendable_getSlash : Sendable getSlash := by
  refine ⟨by decide, ⟨by decide, ?_, by decide⟩, ?_, rfl⟩
  · show Plain (asc "/")
    decide
  · exact fun e he => absurd he List.not_mem_nil

theorem replies_request_getSlash : ∃ c, HttpConn.freshConn.exec (.read HttpConn.getRequest 32) = .ok c ∧
    c.sock.sent = replyTo (some ⟨[]⟩) (received getSlash) (.new 0) := by
  obtain ⟨c, hexec, -⟩ := HttpConn.exec_getRequest
  have hst := HttpConn.Step.mk HttpConn.freshConn (.read HttpConn.getRequest 32)
  rw [hexec] at hst
  have hdump : (getSlash.withBody none).dump true true = some HttpConn.getRequest := by
    decide +kernel
  have hread : HttpConn.delivered [.read HttpConn.getRequest 32] = HttpConn.getRequest ++ [] := by
    rw [HttpConn.delivered, if_neg (by decide), HttpConn.delivered]
  have hsent := (replies_request sendable_getSlash (fun d hd => by cases hd) hdump
    (some ⟨[]⟩) .get 0 (.cons hst (.nil _)) (c := c) rfl hread).1
  refine ⟨c, hexec, hsent.resolve_right ?_⟩
  rintro ⟨-, e, he, chunk, n, ha, hneg⟩
  obtain rfl := List.mem_singleton.mp he
  cases ha
  omega

/-! ## the response that is read -/

/-- the headers can be told apart on the wire -/
def PlainHeaders (r : HttpResponse) : Prop :=
  ∀ e ∈ r.headers.entries, Plain e.1 ∧ Plain e.2 ∧ 58 ∉ e.1

theorem entryLine_inj {e e' : Bytes × Bytes} (h : 58 ∉ e.1) (h' : 58 ∉ e'.1)
    (heq : entryLine e = entryLine e') : e = e' := by
  rw [entryLine_eq, entryLine_eq] at heq
  obtain ⟨hname, hvalue⟩ := split_first h h' heq
  exact Prod.ext hname (List.append_cancel_left hvalue)

theorem map_entryLine_inj {es es' : List (Bytes × Bytes)} (h : ∀ e ∈ es, 58 ∉ e.1)
    (h' : ∀ e ∈ es', 58 ∉ e.1) (heq : es.map entryLine = es'.map entryLine) : es = es' := by
  induction es generalizing es' with
  | nil => exact (List.map_eq_nil_iff.mp heq.symm).symm
  | cons e es ih =>
    cases es' with
    | nil => cases heq
    | cons e' es' =>
      rw [List.map_cons, List.map_cons] at heq
      obtain ⟨hhead, htail⟩ := List.cons.inj heq
      rw [entryLine_inj (h e List.mem_cons_self) (h' e' List.mem_cons_self) hhead,
        ih (fun e he => h e (List.mem_cons_of_mem _ he))
          (fun e he => h' e (List.mem_cons_of_mem _ he)) htail]

/-- **A response can be read back**: two responses with plain headers are the same bytes exactly if
they have the same status, the same headers and the same body. -/
theorem dump_plain_inj {a b : HttpResponse} (ha : PlainHeaders a) (hb : PlainHeaders b) :
    a.dump true true = b.dump true true ↔
      a.statusCode = b.statusCode ∧ a.headers = b.headers ∧ a.contentData = b.contentData := by
  have hmsg : ∀ r : HttpResponse, r.toHttpMsg.dump true true =
      joinLines 13 10 (r.headers.entries.map entryLine) ++ 13 :: 10 :: r.contentData := by
    intro r
    have hheaders : r.dumpHeaders = joinLines 13 10 (r.headers.entries.map entryLine) := by
      rw [HttpMsg.dumpHeaders, joinLines, List.flatMap_map]
      rfl
    show r.dumpHeaders ++ crlf ++ r.contentData = _
    rw [hheaders, List.append_assoc]
    rfl
  have hclean : ∀ {r : HttpResponse}, PlainHeaders r →
      ∀ l ∈ r.headers.entries.map entryLine, Clean 13 10 l ∧ l ≠ [] := by
    intro r hr l hl
    have hlines := HttpResponse.lines_clean (r := r) fun e he => ⟨(hr e he).1, (hr e he).2.1⟩
    exact hlines l (List.mem_cons_of_mem _ hl)
  rw [dump_inj, Alike, hmsg, hmsg]
  refine and_congr_right fun _ => ⟨fun heq => ?_, fun h => by rw [h.1, h.2]⟩
  obtain ⟨hlines, hdata⟩ := joinLines_blank_inj 13 10 (hclean ha) (hclean hb) heq
  exact ⟨SMap.ext_entries (map_entryLine_inj (fun e he => (ha e he).2.2)
    (fun e he => (hb e he).2.2) hlines), hdata⟩

/-- a response with one header -/
def oneHeader (name value : Bytes) : HttpResponse :=
  { HttpResponse.new 200 with headers := SMap.empty.set name value }

/-- two responses with the same header name -/
theorem dump_plain_inj_values : (oneHeader (asc "Server") (asc "a")).dump true true ≠
    (oneHeader (asc "Server") (asc "b")).dump true true := by
  have hplain : ∀ value, Plain value → PlainHeaders (oneHeader (asc "Server") value) := by
    intro value hv
    have hname : Plain (asc "Server") ∧ 58 ∉ asc "Server" := by decide +kernel
    exact List.forall_mem_singleton.mpr ⟨hname.1, hv, hname.2⟩
  intro h
  have hheaders := ((dump_plain_inj (hplain _ (by decide)) (hplain _ (by decide))).mp h).2.1
  have hentries : [(asc "Server", asc "a")] = [(asc "Server", asc "b")] :=
    congrArg SMap.entries hheaders
  revert hentries
  decide +kernel

/-- a line end in a value is a second header -/
example : ({ HttpResponse.new 200 with
      headers := SMap.empty.set (asc "X") (asc "1\r\nY: 2") } : HttpResponse).dump true true =
    ({ HttpResponse.new 200 with
      headers := (SMap.empty.set (asc "X") (asc "1")).set (asc "Y") (asc "2") } :
        HttpResponse).dump true true := by
  decide +kernel

end Feipu
