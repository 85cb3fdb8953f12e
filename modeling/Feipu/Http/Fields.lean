import Feipu.Http.Grammar
import Feipu.Lib.Trace

/-!
# What the parser stores

The states the parser reaches, and what their requests hold.

* `no_injection`   no stored field can end a line of a response it is copied into.
-/

namespace Feipu
open CStr Lines Consume Trace

/-! ## the states the parser reaches -/

/-- what happens to a parser: bytes arrive, or `parse_http` makes a round -/
inductive ParseAct where
  | chunk (c : Bytes)
  | round

/-- the handler and the buffer a round leaves -/
def Round.state : Round → HttpHandler × Buffer
  | .ret _ h b => (h, b)
  | .again h b => (h, b)

/-- one step of a parser; it may go on after `PARSE_END` and after `PARSE_ERROR` -/
inductive ParseRun : HttpHandler × Buffer → ParseAct → HttpHandler × Buffer → Prop where
  | chunk (h : HttpHandler) (b : Buffer) (c : Bytes) : ParseRun (h, b) (.chunk c) (h, b.append c)
  | round {h : HttpHandler} {b : Buffer} {r : Round} : h.round b = some r →
      ParseRun (h, b) .round r.state

/-- `parse_http` makes rounds -/
theorem parseHttp_reach {h h' : HttpHandler} {b b' : Buffer} {status : ParseStatus}
    (hp : h.parseHttp b = some (status, h', b')) : Reach ParseRun (h, b) (h', b') := by
  have hrounds : ∀ (k : Nat) (h : HttpHandler) (b : Buffer),
      HttpHandler.rounds k h b = some (status, h', b') → Reach ParseRun (h, b) (h', b') := by
    intro k
    induction k with
    | zero =>
      intro h b hk
      cases hk
      exact .refl
    | succ k ih =>
      intro h b hk
      rw [HttpHandler.rounds] at hk
      cases hr : h.round b with
      | none =>
        rw [hr] at hk
        cases hk
      | some r =>
        rw [hr] at hk
        have hst : Reach ParseRun (h, b) r.state := Reach.refl.snoc (.round hr)
        cases r with
        | ret status h1 b1 =>
          cases hk
          exact hst
        | again h1 b1 => exact hst.trans (ih h1 b1 hk)
  exact hrounds _ h b hp

/-- the parse state and the request after a round on the bytes `s` -/
def roundOn (p : Parse) (s : Bytes) : Parse :=
  match textStep p s with
  | .more => p
  | .take _ q => q
  | .stop _ _ q => q

theorem round_roundOn {h : HttpHandler} {b : Buffer} {r : Round} (ht : Tracks h b)
    (hr : h.round b = some r) :
    Tracks r.state.1 r.state.2 ∧
      r.state.1.checkState = (roundOn (h.checkState, h.req) b.readable).1 ∧
      r.state.1.req = (roundOn (h.checkState, h.req) b.readable).2 := by
  obtain ⟨rd, hrd, ho⟩ := round_spec ht
  rw [hr] at hrd
  obtain rfl := Option.some.inj hrd
  unfold roundOn
  cases hv : textStep (h.checkState, h.req) b.readable with
  | more =>
    rw [hv] at ho
    obtain ⟨h', b', rfl, hf⟩ := ho
    exact ⟨hf.tracks, congrArg Prod.fst hf.state, congrArg Prod.snd hf.state⟩
  | take n p =>
    rw [hv] at ho
    obtain ⟨h', b', rfl, hf⟩ := ho
    exact ⟨hf.tracks, congrArg Prod.fst hf.state, congrArg Prod.snd hf.state⟩
  | stop status n p =>
    rw [hv] at ho
    obtain ⟨h', b', rfl, hf⟩ := ho
    exact ⟨hf.tracks, congrArg Prod.fst hf.state, congrArg Prod.snd hf.state⟩

/-- a round that takes a line -/
theorem round_take {h : HttpHandler} {b : Buffer} {n : Nat} {q : Parse} (ht : Tracks h b)
    (hv : textStep (h.checkState, h.req) b.readable = .take n q) :
    ∃ h' b', ParseRun (h, b) .round (h', b') ∧ Tracks h' b' ∧ (h'.checkState, h'.req) = q ∧
      b'.readable = b.readable.drop n := by
  obtain ⟨r, hr, ho⟩ := round_spec ht
  rw [hv] at ho
  obtain ⟨h', b', rfl, hf⟩ := ho
  exact ⟨h', b', .round hr, hf.tracks, hf.state, hf.rest⟩

/-- neither CR nor LF nor NUL -/
def Plain (v : Bytes) : Prop := 13 ∉ v ∧ 10 ∉ v ∧ 0 ∉ v

instance decidablePlain (v : Bytes) : Decidable (Plain v) :=
  inferInstanceAs (Decidable (¬ 13 ∈ v ∧ ¬ 10 ∈ v ∧ ¬ 0 ∈ v))

theorem Plain.sub {v w : Bytes} (h : Plain v) (hw : ∀ x ∈ w, x ∈ v) : Plain w :=
  ⟨fun hx => h.1 (hw _ hx), fun hx => h.2.1 (hw _ hx), fun hx => h.2.2 (hw _ hx)⟩

/-- the text of a line has none of them -/
theorem plain_line {s l r : Bytes} (h : cut 13 10 s = .line l r) : Plain (cstr l) := by
  obtain ⟨hl, -⟩ := (cut_line_iff cr_ne_lf).mp h
  have hmem : ∀ c ∈ cstr l, c ∈ l := fun c hc => (cstr_isPrefix l).mem hc
  exact ⟨fun hc => (hl _ (hmem _ hc)).1 rfl, fun hc => (hl _ (hmem _ hc)).2 rfl,
    zero_notMem_cstr l⟩

/-- what a round does to the request: nothing, or it takes the body, or it parses a line -/
theorem roundOn_cases (p : Parse) (s : Bytes) :
    roundOn p s = p ∨
      (∃ d, roundOn p s = (.content, { p.2 with contentData := p.2.contentData ++ d })) ∨
      ∃ l r, cut 13 10 s = .line l r ∧
        ((p.1 = .requestline ∧ (roundOn p s).2 = (parseRequestLine (cstr l) p.2).2) ∨
          p.1 = .header ∧ (roundOn p s).2 = (parseHeaders (cstr l) p.2).2) := by
  rcases p with ⟨cs, req⟩
  by_cases hcs : cs = .content
  · by_cases hlen : s.length ≥ req.contentLenth
    · exact .inr (.inl ⟨s.take req.contentLenth, by rw [roundOn, textStep_content hcs, if_pos hlen]⟩)
    · exact .inl (by rw [roundOn, textStep_content hcs, if_neg hlen])
  · cases hcut : cut 13 10 s with
    | more => exact .inl (by rw [roundOn, textStep_more hcs hcut])
    | bad => exact .inl (by rw [roundOn, textStep_bad hcs hcut])
    | line l r =>
      refine .inr (.inr ⟨l, r, rfl, ?_⟩)
      rw [roundOn, textStep_line hcs hcut]
      cases cs with
      | content => exact absurd rfl hcs
      | requestline =>
        refine .inl ⟨rfl, ?_⟩
        unfold lineVerdict
        rcases parseRequestLine (cstr l) req with ⟨status, req'⟩
        cases status <;> rfl
      | header =>
        refine .inr ⟨rfl, ?_⟩
        unfold lineVerdict
        rcases parseHeaders (cstr l) req with ⟨status, req'⟩
        cases status <;> rfl

/-! ## no field injection -/

/-- no stored field can end a line, the path has no blank, and a name is one -/
structure NoInjection (req : HttpRequest) : Prop where
  path : Plain req.path ∧ 32 ∉ req.path
  version : Plain req.version
  headers : ∀ e ∈ req.headers.entries, Plain e.1 ∧ Plain e.2 ∧ 58 ∉ e.1 ∧ Unled e.1

theorem noInjection_new (m : HttpMethod) : NoInjection (.new m) := by
  have hnil : Plain [] := ⟨List.not_mem_nil, List.not_mem_nil, List.not_mem_nil⟩
  exact ⟨⟨hnil, List.not_mem_nil⟩, hnil, fun _ h => absurd h List.not_mem_nil⟩

theorem setMethod_some {req req' : HttpRequest} {t : Bytes} (h : req.setMethod t = some req') :
    req' = { req with method := httpMethodEnum t } := by
  unfold HttpRequest.setMethod at h
  dsimp only at h
  split at h
  · cases h
  · exact (Option.some.inj h).symm

theorem setUrl_some {req req' : HttpRequest} {t : Bytes} (h : req.setUrl t = some req') :
    req' = { req with path := t } := by
  unfold HttpRequest.setUrl at h
  split at h
  · cases h
  · exact (Option.some.inj h).symm

theorem setVersion_some {req req' : HttpRequest} {t : Bytes} (h : req.setVersion t = some req') :
    req' = { req with version := asc "HTTP/1.1" } := by
  unfold HttpRequest.setVersion at h
  split at h
  · rename_i ht
    rw [← ht]
    exact (Option.some.inj h).symm
  · cases h

/-- a request line stores a method, a word of the line as the path, and the one version -/
theorem parseRequestLine_stores (text : Bytes) (req : HttpRequest) :
    ∃ m path version, (parseRequestLine text req).2 = { req with method := m, path, version } ∧
      (path = req.path ∨ 32 ∉ path ∧ ∀ x ∈ path, x ∈ text) ∧
      (version = req.version ∨ version = asc "HTTP/1.1") := by
  unfold parseRequestLine
  dsimp only
  split
  · exact ⟨_, _, _, rfl, .inl rfl, .inl rfl⟩
  · cases hm : req.setMethod (text.takeWhile inWord) with
    | none => exact ⟨_, _, _, rfl, .inl rfl, .inl rfl⟩
    | some req1 =>
      obtain rfl := setMethod_some hm
      dsimp only
      generalize hw : ((text.drop (text.takeWhile inWord).length).drop 1).takeWhile inWord = url
      have hurl : 32 ∉ url ∧ ∀ x ∈ url, x ∈ text := by
        subst hw
        refine ⟨fun h32 => ?_, fun x hx => ?_⟩
        · exact absurd (List.mem_takeWhile_imp h32) (by decide)
        · exact List.mem_of_mem_drop (List.mem_of_mem_drop ((List.takeWhile_prefix _).mem hx))
      split
      · exact ⟨_, _, _, rfl, .inl rfl, .inl rfl⟩
      · cases hu : HttpRequest.setUrl _ url with
        | none => exact ⟨_, _, _, rfl, .inl rfl, .inl rfl⟩
        | some req2 =>
          obtain rfl := setUrl_some hu
          dsimp only
          split
          · exact ⟨_, _, _, rfl, .inr hurl, .inl rfl⟩
          · rename_i req3 hv
            obtain rfl := setVersion_some hv
            exact ⟨_, _, _, rfl, .inr hurl, .inr rfl⟩

theorem noInjection_requestLine {text : Bytes} {req : HttpRequest} (ht : Plain text)
    (h : NoInjection req) : NoInjection (parseRequestLine text req).2 := by
  obtain ⟨m, path, version, heq, hpath, hversion⟩ := parseRequestLine_stores text req
  rw [heq]
  refine ⟨?_, ?_, h.headers⟩
  · rcases hpath with rfl | ⟨h32, hsub⟩
    · exact h.path
    · exact ⟨ht.sub hsub, h32⟩
  · rcases hversion with rfl | rfl
    · exact h.version
    · show Plain (asc "HTTP/1.1")
      decide

/-- the name and the value of a line are bytes of the line -/
theorem Says.plain {l k v : Bytes} (h : Says l k v) (hl : Plain l) :
    Plain k ∧ Plain v ∧ 58 ∉ k ∧ Unled k := by
  cases h with
  | contentLength hcl =>
    have hv : Plain ((l.drop 15).dropWhile (blanks.contains ·)) :=
      hl.sub fun x hx => List.mem_of_mem_drop ((List.dropWhile_suffix _).mem hx)
    refine ⟨?_, hv, by decide, ?_⟩
    · unfold Plain
      decide
    · intro c hc
      obtain rfl := Option.some.inj hc
      decide
  | field hcl heq hw hb hkne hk h58 hv =>
    subst heq
    exact ⟨hl.sub fun x hx => by simp [hx], hl.sub fun x hx => by simp [hx], h58, hk⟩

/-- a header line stores what it says, or nothing -/
theorem parseHeaders_stores {text : Bytes} (h0 : 0 ∉ text) (req : HttpRequest) :
    (parseHeaders text req).2 = req ∨ ∃ k v, Says text k v ∧
      (parseHeaders text req).2 = { req with
        headers := req.headers.set k v
        contentLenth := lengthAfter req.contentLenth text } := by
  by_cases hne : text = []
  · subst hne
    exact .inl (by rw [parseHeaders_nil])
  · by_cases hh : HeaderLine text
    · obtain ⟨k, v, hs⟩ := gives_of_headerLine hh
      exact .inr ⟨k, v, hs, by rw [parseHeaders_eq h0 hs]⟩
    · exact .inl (by rw [(parseHeaders_line h0 hne req).2 hh])

theorem noInjection_headers {text : Bytes} {req : HttpRequest} (ht : Plain text)
    (h : NoInjection req) : NoInjection (parseHeaders text req).2 := by
  rcases parseHeaders_stores ht.2.2 req with heq | ⟨k, v, hs, heq⟩
  · rw [heq]
    exact h
  · rw [heq]
    refine ⟨h.path, h.version, ?_⟩
    intro e he
    rcases mem_insertEntry he with rfl | he
    · exact hs.plain ht
    · exact h.headers e he

theorem noInjection_roundOn {p : Parse} (h : NoInjection p.2) (s : Bytes) :
    NoInjection (roundOn p s).2 := by
  rcases roundOn_cases p s with heq | ⟨d, heq⟩ | ⟨l, r, hcut, ⟨-, heq⟩ | ⟨-, heq⟩⟩
  · rw [heq]
    exact h
  · rw [heq]
    exact ⟨h.path, h.version, h.headers⟩
  · rw [heq]
    exact noInjection_requestLine (plain_line hcut) h
  · rw [heq]
    exact noInjection_headers (plain_line hcut) h

/-- what every round keeps holds of the request in every state the parser reaches -/
theorem reach_roundOn {P : HttpRequest → Prop}
    (hround : ∀ (p : Parse) (s : Bytes), P p.2 → P (roundOn p s).2) {m : HttpMethod}
    (hnew : P (.new m)) {c : HttpStatus} {h : HttpHandler} {b : Buffer}
    (hr : Reach ParseRun (.fresh m c, .new) (h, b)) : Tracks h b ∧ P h.req := by
  have hstep : ∀ (x : HttpHandler × Buffer) (a : ParseAct) (y : HttpHandler × Buffer),
      Tracks x.1 x.2 ∧ P x.1.req → ParseRun x a y → Tracks y.1 y.2 ∧ P y.1.req := by
    intro x a y ⟨ht, hn⟩ hst
    cases hst with
    | chunk h b c => exact ⟨ht.append c, hn⟩
    | round hrd =>
      obtain ⟨ht', -, hreq⟩ := round_roundOn ht hrd
      refine ⟨ht', ?_⟩
      rw [hreq]
      exact hround _ _ hn
  have hinv := hr.inv hstep ⟨tracks_zero _ _ rfl, hnew⟩
  exact hinv

/-- the parser captures nothing -/
theorem pathMatches_reach {m : HttpMethod} {c : HttpStatus} {h : HttpHandler} {b : Buffer}
    (hr : Reach ParseRun (.fresh m c, .new) (h, b)) : h.req.pathMatches = .empty := by
  refine (reach_roundOn (P := fun req => req.pathMatches = .empty) ?_ rfl hr).2
  intro p s hp
  rcases roundOn_cases p s with heq | ⟨d, heq⟩ | ⟨l, r, -, ⟨-, heq⟩ | ⟨-, heq⟩⟩
  · rw [heq]
    exact hp
  · rw [heq]
    exact hp
  · obtain ⟨m, path, version, hstores, -, -⟩ := parseRequestLine_stores (cstr l) p.2
    rw [heq, hstores]
    exact hp
  · rcases parseHeaders_stores (zero_notMem_cstr l) p.2 with hstores | ⟨k, v, -, hstores⟩
    · rw [heq, hstores]
      exact hp
    · rw [heq, hstores]
      exact hp

/-- the bytes are a stored field -/
def StoredIn (req : HttpRequest) (v : Bytes) : Prop :=
  v = req.path ∨ v = req.version ∨ ∃ e ∈ req.headers.entries, v = e.1 ∨ v = e.2

theorem NoInjection.plain {req : HttpRequest} (h : NoInjection req) {v : Bytes}
    (hv : StoredIn req v) : Plain v := by
  rcases hv with rfl | rfl | ⟨e, he, rfl | rfl⟩
  · exact h.path.1
  · exact h.version
  · exact (h.headers e he).1
  · exact (h.headers e he).2.1

/-- the lines of a response, before the blank one -/
def HttpResponse.lines (r : HttpResponse) : List Bytes :=
  (asc "HTTP/1.1 " ++ decimalInt r.statusCode ++ asc " " ++ httpStatusStr r.statusCode) ::
    r.headers.entries.map fun h => h.1 ++ asc ": " ++ h.2

theorem HttpResponse.dump_eq (r : HttpResponse) :
    r.dump true true = joinLines 13 10 r.lines ++ crlf ++ r.contentData := by
  have hheaders : r.dumpHeaders =
      joinLines 13 10 (r.headers.entries.map fun h => h.1 ++ asc ": " ++ h.2) := by
    rw [HttpMsg.dumpHeaders, joinLines, List.flatMap_map]
    rfl
  rw [HttpResponse.dump, HttpResponse.lines, joinLines_cons, HttpMsg.dump, if_pos rfl, if_pos rfl,
    hheaders]
  simp [crlf]

theorem plain_append {v w : Bytes} (hv : Plain v) (hw : Plain w) : Plain (v ++ w) :=
  ⟨fun h => (List.mem_append.mp h).elim hv.1 hw.1,
    fun h => (List.mem_append.mp h).elim hv.2.1 hw.2.1,
    fun h => (List.mem_append.mp h).elim hv.2.2 hw.2.2⟩

theorem Plain.clean {v : Bytes} (h : Plain v) : Clean 13 10 v :=
  fun _ hc => ⟨fun e => h.1 (e ▸ hc), fun e => h.2.1 (e ▸ hc)⟩

theorem plain_decimal (n : Nat) : Plain (decimal n) := by
  have hne : ∀ x ∈ decimal n, x ≠ 13 ∧ x ≠ 10 ∧ x ≠ 0 := by
    intro x hx
    have hd := isdigit_decimal hx
    refine ⟨?_, ?_, ?_⟩ <;>
    · rintro rfl
      exact absurd hd (by decide)
  exact ⟨fun h => (hne _ h).1 rfl, fun h => (hne _ h).2.1 rfl, fun h => (hne _ h).2.2 rfl⟩

theorem plain_decimalInt (x : Int) : Plain (decimalInt x) := by
  unfold decimalInt
  split
  · refine plain_append ?_ (plain_decimal _)
    decide
  · exact plain_decimal _

theorem plain_httpStatusStr (c : HttpStatus) : Plain (httpStatusStr c) := by
  have hall : ∀ e ∈ httpStatusMap, Plain e.2 := by
    have hcheck : httpStatusMap.all (fun e => e.2.all fun x => x != 13 && (x != 10 && x != 0)) =
        true := by decide +kernel
    intro e he
    have hbytes := List.all_eq_true.mp (List.all_eq_true.mp hcheck e he)
    refine ⟨fun h => ?_, fun h => ?_, fun h => ?_⟩ <;>
      exact absurd (hbytes _ h) (by decide)
  unfold httpStatusStr
  cases hf : httpStatusMap.find? (fun e => e.1 == c) with
  | none =>
    show Plain (asc "<unexpect>")
    decide
  | some e => exact hall e (List.mem_of_find?_eq_some hf)

/-- a response whose headers are plain has just the lines it was given -/
theorem HttpResponse.lines_clean {r : HttpResponse}
    (h : ∀ e ∈ r.headers.entries, Plain e.1 ∧ Plain e.2) :
    ∀ l ∈ r.lines, Clean 13 10 l ∧ l ≠ [] := by
  have hblank : Plain (asc " ") ∧ Plain (asc ": ") ∧ Plain (asc "HTTP/1.1 ") := by
    decide
  obtain ⟨hsp, hcolon, hversion⟩ := hblank
  intro l hl
  rcases List.mem_cons.mp hl with rfl | hl
  · exact ⟨(plain_append (plain_append (plain_append hversion (plain_decimalInt _)) hsp)
      (plain_httpStatusStr _)).clean, fun hnil => by simp [asc] at hnil⟩
  · obtain ⟨e, he, rfl⟩ := List.mem_map.mp hl
    obtain ⟨h1, h2⟩ := h e he
    exact ⟨(plain_append (plain_append h1 hcolon) h2).clean, fun hnil => by simp [asc] at hnil⟩

/-- **No field injection.** -/
theorem no_injection {m : HttpMethod} {c : HttpStatus} {h : HttpHandler} {b : Buffer}
    (hr : Reach ParseRun (.fresh m c, .new) (h, b)) :
    NoInjection h.req ∧ ∀ r : HttpResponse,
      (∀ e ∈ r.headers.entries, (StoredIn h.req e.1 ∨ Plain e.1) ∧ (StoredIn h.req e.2 ∨ Plain e.2)) →
      r.dump true true = joinLines 13 10 r.lines ++ crlf ++ r.contentData ∧
        r.lines.length = r.headers.entries.length + 1 ∧ ∀ l ∈ r.lines, Clean 13 10 l ∧ l ≠ [] := by
  have hn := (reach_roundOn (fun _ s h => noInjection_roundOn h s) (noInjection_new m) hr).2
  refine ⟨hn, ?_⟩
  intro r he
  refine ⟨r.dump_eq, by simp [HttpResponse.lines], HttpResponse.lines_clean ?_⟩
  intro e hmem
  obtain ⟨h1, h2⟩ := he e hmem
  exact ⟨h1.elim hn.plain id, h2.elim hn.plain id⟩

/-- a request line and the start of a header -/
theorem no_injection_get : ∃ h : HttpHandler, h.req.path = asc "/a" ∧ NoInjection h.req := by
  obtain ⟨h, b, hp, hf⟩ := parseHttp_spec
    ((tracks_zero (.fresh .get 0) .new rfl).append (asc "GET /a HTTP/1.1\r\nA"))
  have harrive := Reach.snoc Reach.refl (ParseRun.chunk (.fresh .get 0) .new
    (asc "GET /a HTTP/1.1\r\nA"))
  refine ⟨h, ?_, (no_injection (harrive.trans (parseHttp_reach hp))).1⟩
  have hpath : (run textStep (.requestline, .new .get) (asc "GET /a HTTP/1.1\r\nA")).2.1.2.path =
      asc "/a" := by decide +kernel
  rw [show h.req = _ from congrArg Prod.snd hf.state, Buffer.readable_append, Buffer.readable_new]
  exact hpath

end Feipu
