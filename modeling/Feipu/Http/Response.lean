import Feipu.Http.Fields
import Feipu.Http.HttpServer
import Feipu.Http.Routing

/-!
# What the response depends on

`new HttpRequest` and `new HttpResponse` leave `method` and `status_code` as the memory held them.

* `parses_req`     the parsed request depends on the stream alone;
* `response_iff`   the response does exactly when the handler that answers does not let through the
                   status it finds.
-/

namespace Feipu
open CStr Lines Consume Router

/-! ## the request -/

/-- a request line stores all that `new HttpRequest` leaves open -/
theorem textStep_new (s : Bytes) :
    (∃ n q, ∀ m, textStep (.requestline, .new m) s = .take n q) ∨
      ∀ m, textStep (.requestline, .new m) s = .more ∨
        ∃ n q, textStep (.requestline, .new m) s = .stop .parseError n q := by
  have hcs : RequestState.requestline ≠ .content := fun h => by cases h
  cases hcut : cut 13 10 s with
  | more => exact .inr fun m => .inl (textStep_more hcs hcut)
  | bad => exact .inr fun m => .inr ⟨_, _, textStep_bad hcs hcut⟩
  | line l r =>
    have h0 := zero_notMem_cstr l
    by_cases hl : RequestLine (cstr l)
    · obtain ⟨w, u, hw, hu, hu32, heq⟩ := hl
      rw [heq] at h0
      have hw0 : 0 ∉ w := fun hx => h0 (List.mem_append_left _ hx)
      have hu0 : 0 ∉ u := fun hx => h0 (by simp [hx])
      refine .inl ⟨l.length + 2, (.header, { HttpRequest.new .get with
        method := httpMethodEnum w, path := u, version := asc "HTTP/1.1" }), ?_⟩
      intro m
      rw [textStep_line hcs hcut, heq]
      simp only [lineVerdict, parseRequestLine_eq hw hw0 hu hu0 hu32]
      rfl
    · refine .inr fun m => .inr
        ⟨l.length + 2, (.requestline, (parseRequestLine (cstr l) (.new m)).2), ?_⟩
      rw [textStep_line hcs hcut]
      simp only [lineVerdict, parseRequestLine_bad h0 hl]
      rfl

theorem run_new {m : HttpMethod} {s rest : Bytes} {q : Parse}
    (h : run textStep (.requestline, .new m) s = (some .parseEnd, q, rest)) (m' : HttpMethod) :
    run textStep (.requestline, .new m') s = (some .parseEnd, q, rest) := by
  rcases textStep_new s with ⟨n, p, htake⟩ | hend
  · rw [run_take stable_textStep (htake m)] at h
    rw [run_take stable_textStep (htake m')]
    exact h
  · rcases hend m with hv | ⟨n, p, hv⟩
    · rw [run_more hv] at h
      cases h
    · rw [run_stop hv] at h
      cases h

/-! ## runs -/

theorem feedChunks_keeps {cs : List Bytes} {h h' : HttpHandler} {b : Buffer} {status : ParseStatus}
    (ht : Tracks h b) (hf : feedChunks h b cs = some (status, h')) :
    h'.router = h.router ∧ h'.respon = h.respon := by
  induction cs generalizing h b with
  | nil =>
    cases hf
    exact ⟨rfl, rfl⟩
  | cons c cs ih =>
    obtain ⟨h1, b1, hrun, hfollows⟩ := parseHttp_spec (ht.append c)
    rw [feedChunks, hrun] at hf
    dsimp only at hf
    split at hf
    · obtain ⟨hro, hre⟩ := ih hfollows.tracks hf
      exact ⟨hro.trans hfollows.router, hre.trans hfollows.respon⟩
    · cases hf
      exact ⟨hfollows.router, hfollows.respon⟩

/-- a new handler, fed the stream `s` in some chunks, comes to `PARSE_END` and is `h` -/
def Parses (router : Option Router) (s : Bytes) (h : HttpHandler) : Prop :=
  ∃ m c cs, cs.flatten = s ∧
    feedChunks ((HttpHandler.fresh m c).init router) .new cs = some (.parseEnd, h)

theorem feedChunks_new (router : Option Router) (m : HttpMethod) (c : HttpStatus)
    (cs : List Bytes) :
    ∃ h, feedChunks ((HttpHandler.fresh m c).init router) .new cs =
        some (statusOf (run textStep (.requestline, .new m) cs.flatten).1, h) ∧
      h.req = (run textStep (.requestline, .new m) cs.flatten).2.1.2 ∧
      h.router = router ∧ h.respon = .new c := by
  obtain ⟨h, hfeed, hst⟩ := feedChunks_start (h := (HttpHandler.fresh m c).init router) cs rfl rfl
  obtain ⟨hro, hre⟩ := feedChunks_keeps (tracks_zero _ _ rfl) hfeed
  exact ⟨h, hfeed, congrArg Prod.snd hst, hro, hre⟩

theorem Parses.spec {router : Option Router} {s : Bytes} {h : HttpHandler}
    (hp : Parses router s h) : ∃ q rest, (∀ m, run textStep (.requestline, .new m) s =
        (some .parseEnd, q, rest)) ∧
      h.req = q.2 ∧ h.router = router ∧ ∃ c, h.respon = .new c := by
  obtain ⟨m, c, cs, rfl, hf⟩ := hp
  obtain ⟨h', hf', hreq, hro, hre⟩ := feedChunks_new router m c cs
  rw [hf] at hf'
  obtain ⟨hstatus, rfl⟩ := Prod.mk.inj (Option.some.inj hf')
  rcases hr : run textStep (.requestline, .new m) cs.flatten with ⟨_ | status, q, rest⟩
  · rw [hr] at hstatus
    cases hstatus
  · rw [hr] at hstatus hreq
    obtain rfl : status = .parseEnd := hstatus.symm
    exact ⟨q, rest, run_new hr, hreq, hro, c, hre⟩

/-- every status can be found by the response -/
theorem Parses.respon {router : Option Router} {s : Bytes} {h : HttpHandler}
    (hp : Parses router s h) (c : HttpStatus) :
    ∃ h', Parses router s h' ∧ h'.req = h.req ∧ h'.router = router ∧ h'.respon = .new c := by
  obtain ⟨q, rest, hrun, hreq, -, -⟩ := hp.spec
  obtain ⟨h', hf, hreq', hro, hre⟩ := feedChunks_new router .get c [s]
  have hs : [s].flatten = s := by rw [List.flatten_cons, List.flatten_nil, List.append_nil]
  rw [hs, hrun .get] at hf hreq'
  exact ⟨h', ⟨.get, c, [s], hs, hf⟩, hreq'.trans hreq.symm, hro, hre⟩

/-- **The request depends on the stream alone.** -/
theorem parses_req {router router' : Option Router} {s : Bytes} {h h' : HttpHandler}
    (hp : Parses router s h) (hp' : Parses router' s h') : h.req = h'.req := by
  obtain ⟨q, rest, hrun, hreq, -, -⟩ := hp.spec
  obtain ⟨q', rest', hrun', hreq', -, -⟩ := hp'.spec
  have heq := (hrun .get).symm.trans (hrun' .get)
  rw [hreq, hreq', (Prod.mk.inj (Prod.mk.inj heq).2).1]

/-! ## the status line -/

/-- a number starts with a digit -/
theorem decimal_ne_minus (n : Nat) (x : Bytes) : decimal n ≠ 45 :: x := by
  intro h
  have hd : isdigit 45 = true := isdigit_decimal (n := n) (by rw [h]; exact List.mem_cons_self)
  cases hd

theorem decimalInt_inj {x y : Int} (h : decimalInt x = decimalInt y) : x = y := by
  unfold decimalInt at h
  split at h <;> split at h
  · have habs := decimal_inj (List.append_cancel_left h)
    omega
  · exact absurd h.symm (decimal_ne_minus _ _)
  · exact absurd h (decimal_ne_minus _ _)
  · have habs := decimal_inj h
    omega

theorem blank_notMem_decimalInt (x : Int) : 32 ∉ decimalInt x := by
  have hno : 32 ∉ decimal x.natAbs := by
    intro h
    have hd := isdigit_decimal h
    cases hd
  intro h
  unfold decimalInt at h
  split at h
  · rcases List.mem_append.mp h with h | h
    · exact absurd h (by decide)
    · exact hno h
  · exact hno h

/-- two responses with the same status, header lines and body -/
def Alike (a b : HttpResponse) : Prop :=
  a.statusCode = b.statusCode ∧ a.toHttpMsg.dump true true = b.toHttpMsg.dump true true

theorem dump_inj {a b : HttpResponse} : a.dump true true = b.dump true true ↔ Alike a b := by
  have hsplit : ∀ r : HttpResponse, r.dump true true = asc "HTTP/1.1 " ++ (decimalInt r.statusCode ++
      32 :: (httpStatusStr r.statusCode ++ crlf ++ r.toHttpMsg.dump true true)) := by
    intro r
    show asc "HTTP/1.1 " ++ decimalInt r.statusCode ++ [32] ++ httpStatusStr r.statusCode ++ crlf ++
      r.toHttpMsg.dump true true = _
    simp only [List.append_assoc, List.cons_append, List.nil_append]
  constructor
  · intro h
    rw [hsplit, hsplit] at h
    obtain ⟨hnum, hrest⟩ := split_first (blank_notMem_decimalInt _) (blank_notMem_decimalInt _)
      (List.append_cancel_left h)
    have hcode := decimalInt_inj hnum
    rw [hcode] at hrest
    exact ⟨hcode, List.append_cancel_left hrest⟩
  · intro ⟨hcode, hmsg⟩
    rw [hsplit, hsplit, hcode, hmsg]

/-! ## the response -/

/-- the bytes `handle_http` hands to `send`; none where there is no router -/
def HttpHandler.response (h : HttpHandler) : Option (Except Fatal Bytes) :=
  h.router.map fun router => do
    let (_, respon) ← router.deal h.req h.respon
    return respon.dump true true

theorem handleHttp_response (c : HttpConn) (n : Int) :
    (c.handleHttp n).2.map (·.sock) =
      match c.handler.response with
      | none => .ok c.sock
      | some bytes => bytes >>= fun bytes => c.sock.send bytes n := by
  unfold HttpConn.handleHttp HttpHandler.response
  cases c.handler.router with
  | none => rfl
  | some router =>
    dsimp only [Option.map_some]
    cases router.deal c.handler.req c.handler.respon with
    | error f => rfl
    | ok p =>
      show Except.map (fun x : HttpConn => x.sock) (c.sock.send (p.2.dump true true) n >>= fun sock =>
        pure { sock, handler := { c.handler with req := p.1, respon := p.2 } }) =
          c.sock.send (p.2.dump true true) n
      cases c.sock.send (p.2.dump true true) n with
      | error f => rfl
      | ok t => rfl

/-- **The response depends on the stream and the routes alone exactly when the handler that answers
gives the same response whatever status it finds.** -/
theorem response_iff {router : Option Router} {s : Bytes} {h : HttpHandler}
    (hp : Parses router s h) :
    (∀ h₁ h₂, Parses router s h₁ → Parses router s h₂ → h₁.response = h₂.response) ↔
      ∀ r func req, router = some r → r.match' h.req = .ok (some func, req) →
        ∀ c c', Alike (func req (.new c)) (func req (.new c')) := by
  constructor
  · intro hall r func req hr hmatch c c'
    obtain ⟨h₁, hp₁, hreq₁, hro₁, hre₁⟩ := hp.respon c
    obtain ⟨h₂, hp₂, hreq₂, hro₂, hre₂⟩ := hp.respon c'
    have hsame := hall h₁ h₂ hp₁ hp₂
    unfold HttpHandler.response at hsame
    rw [hro₁, hro₂, hreq₁, hreq₂, hre₁, hre₂, hr] at hsame
    unfold deal at hsame
    rw [Option.map_some, Option.map_some, hmatch] at hsame
    have hdump : (func req (.new c)).dump true true = (func req (.new c')).dump true true :=
      Except.ok.inj (Option.some.inj hsame)
    exact dump_inj.mp hdump
  · intro halike h₁ h₂ hp₁ hp₂
    obtain ⟨-, -, -, -, hro₁, c₁, hre₁⟩ := hp₁.spec
    obtain ⟨-, -, -, -, hro₂, c₂, hre₂⟩ := hp₂.spec
    unfold HttpHandler.response
    rw [hro₁, hro₂, parses_req hp₁ hp, parses_req hp₂ hp, hre₁, hre₂]
    cases hr : router with
    | none => rfl
    | some r =>
      unfold deal
      rw [Option.map_some, Option.map_some]
      cases hmatch : r.match' h.req with
      | error f => rfl
      | ok p =>
        obtain ⟨func, req⟩ := p
        cases func with
        | none => rfl
        | some func =>
          have hdump := dump_inj.mpr (halike r func req hr hmatch c₁ c₂)
          exact congrArg (fun x => some (Except.ok x)) hdump

/-- a GET handler under "/index.html" -/
def indexRouter (handler : HandleFuc) : Router := ⟨[(asc "/index.html", [⟨.get, handler⟩])]⟩

def getIndex : Bytes := asc "GET /index.html HTTP/1.1\r\n\r\n"

theorem parses_getIndex (router : Option Router) (c : HttpStatus) :
    ∃ h, Parses router getIndex h ∧ h.router = router ∧ h.respon = .new c ∧
      h.req = (run textStep (.requestline, .new .get) getIndex).2.1.2 := by
  have hend : (run textStep (.requestline, .new .get) getIndex).1 = some .parseEnd := by
    decide +kernel
  have hs : [getIndex].flatten = getIndex := by
    rw [List.flatten_cons, List.flatten_nil, List.append_nil]
  obtain ⟨h, hf, hreq, hro, hre⟩ := feedChunks_new router .get c [getIndex]
  rw [hs] at hf hreq
  rw [hend] at hf
  exact ⟨h, ⟨.get, c, [getIndex], hs, hf⟩, hro, hre, hreq⟩

/-- a handler that sets the status as well -/
theorem response_okIndex : ∃ r h, Parses (some r) getIndex h ∧
    ∀ h₁ h₂, Parses (some r) getIndex h₁ → Parses (some r) getIndex h₂ →
      h₁.response = h₂.response := by
  obtain ⟨h, hp, -⟩ := parses_getIndex (some (indexRouter (some fun _ resp =>
    { resp with statusCode := 200, toHttpMsg := resp.setContent (asc "Hello HTML5") }))) 0
  refine ⟨_, h, hp, (response_iff hp).mpr ?_⟩
  intro r func req hr hmatch c c'
  obtain rfl := Option.some.inj hr
  obtain ⟨e, he, m, hm, hfunc⟩ := match'_registered hmatch
  rw [List.mem_singleton.mp he] at hm
  rw [List.mem_singleton.mp hm] at hfunc
  rw [← Option.some.inj hfunc]
  exact ⟨rfl, rfl⟩

/-- the handler of the readme only calls `setContent` -/
theorem response_readme : ¬ ∀ router s h₁ h₂, Parses router s h₁ → Parses router s h₂ →
    h₁.response = h₂.response := by
  intro hall
  obtain ⟨r, hr⟩ : ∃ r, r = indexRouter (some fun _ resp =>
    { resp with toHttpMsg := resp.setContent (asc "Hello HTML5") }) := ⟨_, rfl⟩
  obtain ⟨h₁, hp₁, hro₁, hre₁, hreq₁⟩ := parses_getIndex (some r) 0
  obtain ⟨h₂, hp₂, hro₂, hre₂, hreq₂⟩ := parses_getIndex (some r) 200
  have h := hall _ _ _ _ hp₁ hp₂
  unfold HttpHandler.response at h
  rw [hro₁, hro₂, hre₁, hre₂, hreq₁, hreq₂, hr] at h
  have hbytes := congrArg (fun x : Option (Except Fatal Bytes) => x.bind (·.toOption)) h
  exact absurd hbytes (by decide +kernel)

end Feipu
