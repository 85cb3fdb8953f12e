import Feipu.Http.Fields

/-!
# Requests and their serialisation

`HttpRequest::Dump` writes what `parse_http` reads.

* `parse_dump`   the parser, fed with a serialised request in any pieces, ends with its method, its
                 path, its headers and its body.
-/

namespace Feipu
open CStr Lines Consume

/-! ## one entry of the headers -/

/-- an entry that a header line can carry -/
structure FieldEntry (e : Bytes × Bytes) : Prop where
  name : e.1 ≠ [] ∧ Unled e.1 ∧ 58 ∉ e.1 ∧ Plain e.1
  value : Unled e.2 ∧ Plain e.2
  spelling : IsContentLength e.1 → e.1 = asc "Content-length"

/-- the line `DumpHeaders` writes for an entry -/
def entryLine (e : Bytes × Bytes) : Bytes := e.1 ++ asc ": " ++ e.2

theorem entryLine_eq (e : Bytes × Bytes) : entryLine e = e.1 ++ 58 :: ([32] ++ e.2) := by
  simp [entryLine, asc]

theorem FieldEntry.plain_line {e : Bytes × Bytes} (h : FieldEntry e) : Plain (entryLine e) := by
  have hcolon : Plain (asc ": ") := by
    decide
  exact plain_append (plain_append h.name.2.2.2 hcolon) h.value.2

/-- the value of a content-length line -/
theorem drop_entryLine {e : Bytes × Bytes} (hk : IsContentLength e.1) (hv : Unled e.2) :
    ((entryLine e).drop 15).dropWhile (blanks.contains ·) = e.2 := by
  have hlen : e.1.length = 14 := by
    have h := congrArg List.length hk
    rw [List.length_map, List.length_map] at h
    exact h
  have hdrop : (entryLine e).drop 15 = [32] ++ e.2 := by
    rw [entryLine_eq, show 15 = e.1.length + 1 by rw [hlen], ← List.drop_drop, List.drop_left]
    rfl
  rw [hdrop, dropWhile_unled blank_singleton hv]

theorem FieldEntry.gives {e : Bytes × Bytes} (h : FieldEntry e) : Says (entryLine e) e.1 e.2 := by
  obtain ⟨hne, hun, h58, -⟩ := h.name
  have hcl := contentLengthLine_colon h58 ([32] ++ e.2)
  rw [← entryLine_eq] at hcl
  by_cases hk : IsContentLength e.1
  · have hs := Says.contentLength (hcl.mpr hk)
    rw [drop_entryLine hk h.value.1, ← h.spelling hk] at hs
    exact hs
  · exact .field (w := []) (b := [32]) (mt hcl.mp hk) (entryLine_eq e)
      (fun _ hx => absurd hx List.not_mem_nil) blank_singleton hne hun h58 h.value.1

/-- the body length after an entry, given the one before -/
def lengthOf (n : Nat) (e : Bytes × Bytes) : Nat :=
  if IsContentLength e.1 then toSizeT (atol e.2) else n

theorem FieldEntry.lengthAfter {e : Bytes × Bytes} (h : FieldEntry e) (n : Nat) :
    lengthAfter n (entryLine e) = lengthOf n e := by
  have hcl := contentLengthLine_colon h.name.2.2.1 ([32] ++ e.2)
  rw [← entryLine_eq] at hcl
  by_cases hk : IsContentLength e.1
  · rw [Feipu.lengthAfter, if_pos (hcl.mpr hk), drop_entryLine hk h.value.1, lengthOf, if_pos hk]
  · rw [Feipu.lengthAfter, if_neg (mt hcl.mp hk), lengthOf, if_neg hk]

/-- an entry is stored -/
def store (req : HttpRequest) (e : Bytes × Bytes) : HttpRequest :=
  { req with
    headers := req.headers.set e.1 e.2
    contentLenth := lengthOf req.contentLenth e }

theorem foldl_store (es : List (Bytes × Bytes)) (req : HttpRequest) :
    es.foldl store req = { req with
      headers := es.foldl (fun m e => m.set e.1 e.2) req.headers
      contentLenth := es.foldl lengthOf req.contentLenth } := by
  induction es generalizing req with
  | nil => rfl
  | cons e es ih => exact ih (store req e)

/-! ## the run over a serialised request -/

/-- a line that is taken -/
theorem run_line {p q : Parse} {l r : Bytes} (hl : Plain l) (hcs : p.1 ≠ .content)
    (hv : lineVerdict p.1 l p.2 (l.length + 2) = .take (l.length + 2) q) :
    run textStep p (l ++ 13 :: 10 :: r) = run textStep q r := by
  refine run_taken hl.clean hcs ?_ r
  rw [cstr_of_notMem hl.2.2, hv]

theorem run_entry {e : Bytes × Bytes} (h : FieldEntry e) (req : HttpRequest) (rest : Bytes) :
    run textStep (.header, req) (entryLine e ++ 13 :: 10 :: rest) =
      run textStep (.header, store req e) rest := by
  apply run_line h.plain_line (fun h => by cases h)
  simp only [lineVerdict, parseHeaders_eq h.plain_line.2.2 h.gives, h.lengthAfter, ite_true]
  rfl

theorem run_entries {es : List (Bytes × Bytes)} (h : ∀ e ∈ es, FieldEntry e) (req : HttpRequest)
    (rest : Bytes) :
    run textStep (.header, req) (joinLines 13 10 (es.map entryLine) ++ rest) =
      run textStep (.header, es.foldl store req) rest := by
  induction es generalizing req with
  | nil => rfl
  | cons e es ih =>
    rw [List.map_cons, joinLines_cons, List.append_assoc, List.cons_append, List.cons_append,
      run_entry (h e List.mem_cons_self), ih fun e' he' => h e' (List.mem_cons_of_mem _ he')]
    rfl

/-- the blank line, and the body it announces -/
theorem run_body {req : HttpRequest} {body : Bytes} (hlen : req.contentLenth = body.length)
    (hdata : req.contentData = []) :
    ∃ q rest, run textStep (.header, req) (13 :: 10 :: body) = (some .parseEnd, q, rest) ∧
      q.2 = { req with contentData := body } := by
  have hcut : cut 13 10 (13 :: 10 :: body) = .line [] body := cut_line 13 10 (clean_nil _ _) body
  have hne : (RequestState.header, req).1 ≠ .content := fun h => by cases h
  by_cases hb : body = []
  · subst hb
    have hstep : textStep (.header, req) [13, 10] = .stop .parseEnd 2 (.header, req) := by
      rw [textStep_line hne hcut, cstr_nil]
      simp [lineVerdict, parseHeaders_nil, hlen]
    refine ⟨_, _, run_stop hstep, ?_⟩
    rw [← hdata]
  · have hpos : req.contentLenth ≠ 0 := by
      rw [hlen]
      exact fun h => hb (List.length_eq_zero_iff.mp h)
    have hstep : textStep (.header, req) (13 :: 10 :: body) = .take 2 (.content, req) := by
      rw [textStep_line hne hcut, cstr_nil]
      simp [lineVerdict, parseHeaders_nil, hpos]
    have hbody := textStep_content (p := (.content, req)) rfl body
    rw [if_pos (le_of_eq hlen)] at hbody
    rw [run_take stable_textStep hstep]
    refine ⟨_, _, run_stop hbody, ?_⟩
    show ({ req with contentData := req.contentData ++ body.take req.contentLenth } : HttpRequest) = _
    rw [hdata, hlen, List.take_length]
    rfl

/-! ## requests -/

/-- what a request line and header lines can carry; a body is yet to be set -/
structure Sendable (r : HttpRequest) : Prop where
  method : r.method ≠ .unexpectMethod
  path : r.path ≠ [] ∧ Plain r.path ∧ 32 ∉ r.path
  headers : ∀ e ∈ r.headers.entries, (e.1 ≠ [] ∧ Unled e.1 ∧ 58 ∉ e.1 ∧ Plain e.1) ∧
    ¬ IsContentLength e.1 ∧ Unled e.2 ∧ Plain e.2
  noBody : r.contentData = []

/-- the body is absent, or set by one call of `setContent` -/
def HttpRequest.withBody (r : HttpRequest) : Option Bytes → HttpRequest
  | none => r
  | some body => { r with toHttpMsg := r.toHttpMsg.setContent body }

theorem httpMethodEnum_str {m : HttpMethod} (h : m ≠ .unexpectMethod) :
    httpMethodStr m ∈ methodNames ∧ 0 ∉ httpMethodStr m ∧ Plain (httpMethodStr m) ∧
      httpMethodEnum (httpMethodStr m) = m := by
  unfold Plain
  cases m with
  | unexpectMethod => exact absurd rfl h
  | head | get | delete | put | post | patch => decide

theorem atol_decimal {n : Nat} (h : n ≤ maxSize) : toSizeT (atol (decimal n)) = n := by
  have hlt : digitsVal (decimal n) < 2 ^ 63 := by
    rw [digitsVal_decimal]
    unfold maxSize at h
    omega
  rw [atol_digits (decimal_ne_nil n) (fun x hx => isdigit_decimal hx) hlt, digitsVal_decimal]

/-- the entries of such a request, once the body is set -/
theorem Sendable.entries {r : HttpRequest} (h : Sendable r) (body : Option Bytes) :
    ∀ e ∈ (r.withBody body).headers.entries, FieldEntry e := by
  have hold : ∀ e ∈ r.headers.entries, FieldEntry e := by
    intro e he
    obtain ⟨hname, hcl, hvalue⟩ := h.headers e he
    exact ⟨hname, hvalue, fun hk => absurd hk hcl⟩
  cases body with
  | none => exact hold
  | some body =>
    intro e he
    rcases mem_insertEntry he with rfl | he
    · have hname : asc "Content-length" ≠ [] ∧ 58 ∉ asc "Content-length" ∧
          Plain (asc "Content-length") := by
        decide
      refine ⟨⟨hname.1, ?_, hname.2⟩, ⟨?_, plain_decimal _⟩, fun _ => rfl⟩
      · intro c hc
        obtain rfl := Option.some.inj hc
        decide
      · intro c hc hblank
        have hd := isdigit_decimal (List.mem_of_mem_head? hc)
        have hc : c = 32 ∨ c = 9 := by simpa [blanks] using hblank
        rcases hc with rfl | rfl <;> exact absurd hd (by decide)
    · exact hold e he

theorem foldl_lengthOf_none {es : List (Bytes × Bytes)} (h : ∀ e ∈ es, ¬ IsContentLength e.1)
    (n : Nat) : es.foldl lengthOf n = n := by
  induction es with
  | nil => rfl
  | cons e es ih =>
    rw [List.foldl_cons, lengthOf, if_neg (h e List.mem_cons_self)]
    exact ih fun e' he' => h e' (List.mem_cons_of_mem _ he')

theorem foldl_lengthOf_some {es : List (Bytes × Bytes)} {len : Nat}
    (h : ∀ e ∈ es, IsContentLength e.1 → toSizeT (atol e.2) = len)
    (hex : ∃ e ∈ es, IsContentLength e.1) (n : Nat) : es.foldl lengthOf n = len := by
  induction es generalizing n with
  | nil =>
    obtain ⟨e, he, -⟩ := hex
    exact absurd he List.not_mem_nil
  | cons e es ih =>
    rw [List.foldl_cons]
    by_cases hrest : ∃ e' ∈ es, IsContentLength e'.1
    · exact ih (fun e' he' => h e' (List.mem_cons_of_mem _ he')) hrest _
    · rw [foldl_lengthOf_none (fun e' he' hk => hrest ⟨e', he', hk⟩)]
      obtain ⟨e', he', hk⟩ := hex
      rcases List.mem_cons.mp he' with rfl | he'
      · rw [lengthOf, if_pos hk]
        exact h e' List.mem_cons_self hk
      · exact absurd ⟨e', he', hk⟩ hrest

/-- the entries announce the length of the body -/
theorem Sendable.length {r : HttpRequest} (h : Sendable r) {body : Option Bytes}
    (hbody : ∀ d ∈ body, d.length ≤ maxSize) :
    (r.withBody body).headers.entries.foldl lengthOf 0 = (r.withBody body).contentData.length := by
  cases body with
  | none =>
    have hnone : r.headers.entries.foldl lengthOf 0 = 0 :=
      foldl_lengthOf_none (fun e he => (h.headers e he).2.1) 0
    show r.headers.entries.foldl lengthOf 0 = r.contentData.length
    rw [hnone, h.noBody]
    rfl
  | some body =>
    have hlen := hbody body rfl
    show (r.headers.set (asc "Content-length") (decimal body.length)).entries.foldl lengthOf 0 =
      (r.contentData ++ body).length
    rw [h.noBody, List.nil_append]
    apply foldl_lengthOf_some
    · intro e he hk
      rcases mem_insertEntry he with rfl | he
      · exact atol_decimal hlen
      · exact absurd hk (h.headers e he).2.1
    · exact ⟨_, SMap.mem_set_iff.mpr (.inl rfl), rfl⟩

/-- a request line, the header lines, the blank line and the body -/
theorem HttpRequest.dump_eq {r : HttpRequest} {s : Bytes} (h : r.dump true true = some s)
    (hp : 0 ∉ r.path) :
    s = (httpMethodStr r.method ++ 32 :: (r.path ++ 32 :: asc "HTTP/1.1")) ++ 13 :: 10 ::
      (joinLines 13 10 (r.headers.entries.map entryLine) ++ 13 :: 10 :: r.contentData) := by
  have hheaders : r.dumpHeaders = joinLines 13 10 (r.headers.entries.map entryLine) := by
    rw [HttpMsg.dumpHeaders, joinLines, List.flatMap_map]
    rfl
  unfold HttpRequest.dump stringFormat at h
  split at h
  · rw [← Option.some.inj h]
    simp only [HttpMsg.dump, ite_true, hheaders, cstr_of_notMem hp, crlf]
    simp [asc]
  · cases h

/-- the run over a serialised request, from a fresh parser -/
theorem run_dump {r : HttpRequest} (hr : Sendable r) {body : Option Bytes}
    (hbody : ∀ d ∈ body, d.length ≤ maxSize) {s : Bytes}
    (hs : (r.withBody body).dump true true = some s) (m : HttpMethod) :
    ∃ q rest, run textStep (.requestline, .new m) s = (some .parseEnd, q, rest) ∧
      q.2.method = r.method ∧ q.2.path = r.path ∧ q.2.headers = (r.withBody body).headers ∧
      q.2.contentData = (r.withBody body).contentData := by
  have hmethod : (r.withBody body).method = r.method := by cases body <;> rfl
  have hpath : (r.withBody body).path = r.path := by cases body <;> rfl
  obtain ⟨hmem, hm0, hmplain, henum⟩ := httpMethodEnum_str hr.method
  obtain ⟨hpne, hpplain, hp32⟩ := hr.path
  have hsplit := HttpRequest.dump_eq hs (hpath ▸ hpplain.2.2)
  rw [hmethod, hpath] at hsplit
  have hline : Plain (httpMethodStr r.method ++ 32 :: (r.path ++ 32 :: asc "HTTP/1.1")) := by
    have hblank : Plain [32] ∧ Plain (32 :: asc "HTTP/1.1") := by
      decide
    exact plain_append hmplain (plain_append hblank.1 (plain_append hpplain hblank.2))
  have hfirst : run textStep (.requestline, .new m) s = run textStep
      (.header, { HttpRequest.new m with
        method := r.method, path := r.path, version := asc "HTTP/1.1" })
      (joinLines 13 10 ((r.withBody body).headers.entries.map entryLine) ++
        13 :: 10 :: (r.withBody body).contentData) := by
    rw [hsplit]
    apply run_line hline (fun h => by cases h)
    simp [lineVerdict, parseRequestLine_eq hmem hm0 hpne hpplain.2.2 hp32, henum]
  rw [hfirst, run_entries (hr.entries body), foldl_store]
  have hlen : ({ HttpRequest.new m with
      method := r.method, path := r.path, version := asc "HTTP/1.1"
      headers := (r.withBody body).headers.entries.foldl (fun m e => m.set e.1 e.2) .empty
      contentLenth := (r.withBody body).headers.entries.foldl lengthOf 0 } : HttpRequest).contentLenth =
      (r.withBody body).contentData.length := hr.length hbody
  obtain ⟨q, rest, hrun, hq⟩ := run_body hlen rfl
  refine ⟨q, rest, hrun, ?_⟩
  rw [hq]
  exact ⟨rfl, rfl, SMap.foldl_set_entries _, rfl⟩

/-- **Parsing undoes serialising.** -/
theorem parse_dump {r : HttpRequest} (hr : Sendable r) {body : Option Bytes}
    (hbody : ∀ d ∈ body, d.length ≤ maxSize) {s : Bytes}
    (hs : (r.withBody body).dump true true = some s) (m : HttpMethod) (c : HttpStatus)
    {cs : List Bytes} (hcs : cs.flatten = s) :
    ∃ h, feedChunks (.fresh m c) .new cs = some (.parseEnd, h) ∧ h.req.method = r.method ∧
      h.req.path = r.path ∧ h.req.headers = (r.withBody body).headers ∧
      h.req.contentData = (r.withBody body).contentData := by
  obtain ⟨q, rest, hrun, hq⟩ := run_dump hr hbody hs m
  obtain ⟨h, hfeed, hstate⟩ := feedChunks_start (h := .fresh m c) cs rfl rfl
  have hall : run textStep ((HttpHandler.fresh m c).checkState, (HttpHandler.fresh m c).req)
      cs.flatten = (some .parseEnd, q, rest) := by
    rw [hcs]
    exact hrun
  rw [hall] at hfeed hstate
  refine ⟨h, hfeed, ?_⟩
  rw [show h.req = q.2 from congrArg Prod.snd hstate]
  exact hq

/-- a request with a header; its body is yet to be set -/
def postRequestX : HttpRequest where
  method := .post
  path := asc "/a"
  headers := SMap.empty.set (asc "X") []

theorem sendable_postRequestX : Sendable postRequestX := by
  refine ⟨by decide, ⟨by decide, ?_, by decide⟩, ?_, rfl⟩
  · show Plain (asc "/a")
    decide
  · intro e he
    obtain rfl := List.mem_singleton.mp he
    refine ⟨⟨by decide, ?_, by decide, ?_⟩, by decide, ?_, ?_⟩
    · intro c hc
      obtain rfl := Option.some.inj hc
      decide
    · show Plain (asc "X")
      decide
    · exact fun c hc => (by cases hc)
    · show Plain []
      decide

/-- a header, a body that looks like a blank line, and two pieces -/
theorem parse_dump_post :
    ∃ h, feedChunks (.fresh .get 0) .new
        [asc "POST /a HTTP/1.1\r\nContent-le", asc "ngth: 2\r\nX: \r\n\r\n\r\n"] =
        some (.parseEnd, h) ∧ h.req.method = .post ∧ h.req.path = asc "/a" ∧
      h.req.headers = (postRequestX.withBody (some [13, 10])).headers ∧
      h.req.contentData = [13, 10] := by
  have hdump : (postRequestX.withBody (some [13, 10])).dump true true =
      some (asc "POST /a HTTP/1.1\r\nContent-length: 2\r\nX: \r\n\r\n\r\n") := by
    decide +kernel
  refine parse_dump sendable_postRequestX ?_ hdump .get 0 (by decide +kernel)
  intro d hd
  obtain rfl := Option.some.inj hd
  decide

end Feipu
