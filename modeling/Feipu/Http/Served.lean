import Feipu.Http.Clients

/-!
# What the clients of a server get

Runs of an `HttpServer` with any number of loops and clients.

* `server_survives`   the process goes on exactly as long as the bytes that come in spare their
                      connection; every event finds its connection with a handler, and what ends the
                      process is the `on_recv` of one client;
* `server_refines`    a run is one of the `TcpServer`, and of an `HttpConn` for each client;
* `clients_served`    each client gets the reply to the bytes that it has sent itself.
-/

namespace Feipu
open Trace

namespace HttpServer
variable {ι : Type} [DecidableEq ι] {router : Option Router}

/-- the events of the client `c` -/
def events (c : Nat)
    (tr : List (Tr (Except Fatal (HttpServer ι)) (Option (Nat × Called)))) : List HttpConn.Act :=
  tr.filterMap fun e => actOf c e.act

omit [DecidableEq ι] in
theorem events_snoc (c : Nat)
    (tr : List (Tr (Except Fatal (HttpServer ι)) (Option (Nat × Called))))
    (e : Tr (Except Fatal (HttpServer ι)) (Option (Nat × Called))) :
    events c (tr ++ [e]) = events c tr ++ (actOf c e.act).toList := by
  rw [events, List.filterMap_append, List.filterMap_cons]
  cases actOf c e.act with
  | none => rfl
  | some b => rfl

/-- the client is not established yet, or has made a run of its own of these events -/
inductive Session (router : Option Router) (acts : List HttpConn.Act) : Option HttpConn → Prop where
  | before : acts = [] → Session router acts none
  | run (m : HttpMethod) (status : HttpStatus) {tr : List (Tr (Except Fatal HttpConn) HttpConn.Act)}
      {h : HttpConn} : Path HttpConn.Step (.ok (.onConnect router m status)) tr →
      last (.ok (.onConnect router m status)) tr = .ok h → tr.map Tr.act = acts →
      Session router acts (some h)

theorem Session.moves {acts : List HttpConn.Act} {o o' : Option HttpConn} {a : Option HttpConn.Act}
    (h : Session router acts o) (hm : Moves router o a o') :
    Session router (acts ++ a.toList) o' := by
  cases hm with
  | same o =>
    rw [Option.toList_none, List.append_nil]
    exact h
  | connect m status =>
    cases h with
    | before hnil =>
      rw [hnil]
      exact .run m status (.nil _) rfl rfl
  | @event h0 h' a hexec =>
    cases h with
    | @run m status past _ hp hlast hacts =>
      have hstep := HttpConn.Step.mk h0 a
      rw [hexec] at hstep
      have hone : Path HttpConn.Step (last (.ok (.onConnect router m status)) past)
          [⟨.ok h0, a, .ok h'⟩] := by
        rw [hlast]
        exact .cons hstep (.nil _)
      refine .run m status (hp.append hone) ?_ ?_
      · rw [last_append]
        rfl
      · rw [List.map_append, hacts]
        rfl

/-- what a run of the server has come to -/
structure Told (router : Option Router) (main : ι)
    (tr : List (Tr (Except Fatal (HttpServer ι)) (Option (Nat × Called)))) (s : HttpServer ι) :
    Prop where
  hosts : Hosts s
  run : Reach TcpServer.Step (.ok (.new main)) (.ok s.tcpserver)
  session : ∀ c, Session router (events c tr) (s.client c)

theorem told_path {main : ι}
    {tr : List (Tr (Except Fatal (HttpServer ι)) (Option (Nat × Called)))} {s : HttpServer ι}
    (h : Path (Step router) (.ok (new main)) tr) (hlast : last (.ok (new main)) tr = .ok s) :
    Told router main tr s := by
  have h0 : Alive (Told router main []) (.ok (new main)) :=
    alive_ok ⟨hosts_new main, .refl, fun c => .before rfl⟩
  have hrun := h.history (I := fun tr x => Alive (Told router main tr) x) ?_ h0
  · exact hrun s hlast
  · intro past x a y hx hst t ht
    obtain ⟨s, rfl⟩ : ∃ s, x = .ok s := by cases hst <;> exact ⟨_, rfl⟩
    obtain ⟨hhosts, hreach, hsession⟩ := hx s rfl
    obtain ⟨hhosts', hmoves, hreach'⟩ := (leads_step hhosts hst).goes t ht
    refine ⟨hhosts', hreach.trans hreach', fun c => ?_⟩
    rw [events_snoc]
    exact (hsession c).moves (hmoves c)

/-- a server with one loop and no routes has accepted a client, whose request has come -/
theorem path_request : ∃ (tr : List (Tr (Except Fatal (HttpServer Unit)) (Option (Nat × Called))))
    (s : HttpServer Unit), Path (Step (some ⟨[]⟩)) (.ok (new ())) tr ∧
      last (.ok (new ())) tr = .ok s ∧ s.client 0 = some HttpConn.freshConn ∧
      s.tcpserver.handling () = some (0, [.read]) ∧ events 0 tr = [] ∧
      ∀ e ∈ tr, ∃ t, e.post = .ok t := by
  have hp : Path (Step (some ⟨[]⟩)) (.ok (new () : HttpServer Unit)) _ :=
    .cons (.accept 5 () .get 0 fun c hc => (by cases hc)) <|
    .cons (.poll () [(0, pollIn)] rfl rfl rfl
      ⟨List.nodup_singleton _, fun e he => (by
        rw [List.mem_singleton.mp he]
        exact ⟨⟨5, _, rfl⟩, by decide⟩)⟩) <|
    .cons (.handleEvent () 0 pollIn [] rfl rfl) (.nil _)
  refine ⟨_, _, hp, rfl, rfl, rfl, rfl, ?_⟩
  refine List.forall_mem_cons.mpr ⟨⟨_, rfl⟩, List.forall_mem_cons.mpr ⟨⟨_, rfl⟩, ?_⟩⟩
  exact List.forall_mem_cons.mpr ⟨⟨_, rfl⟩, fun e he => by cases he⟩

/-- the request is read and answered -/
theorem path_answered : ∃ (tr : List (Tr (Except Fatal (HttpServer Unit)) (Option (Nat × Called))))
    (s : HttpServer Unit) (k : HttpConn), Path (Step (some ⟨[]⟩)) (.ok (new ())) tr ∧
      last (.ok (new ())) tr = .ok s ∧ s.client 0 = some k ∧
      events 0 tr = [.read HttpConn.getRequest 32] ∧ ∀ e ∈ tr, ∃ t, e.post = .ok t := by
  obtain ⟨tr, s, hp, hlast, hclient, hhand, hnil, hall⟩ := path_request
  obtain ⟨c1, hexec, -⟩ := HttpConn.execIn_getRequest
  obtain ⟨y, hst⟩ : ∃ y, Step (some ⟨[]⟩) (.ok s) (some (0, .read HttpConn.getRequest 32)) y :=
    ⟨_, .callback () 0 (.read HttpConn.getRequest 32) [] hhand⟩
  obtain ⟨hiff, hgoes, -⟩ := leads_step (told_path hp hlast).hosts hst
  have hspares := (HttpConn.execIn_spares (HttpConn.calm_onConnect (some ⟨[]⟩) .get 0) _).1.mp
    ⟨c1, hexec⟩
  obtain ⟨t, rfl⟩ := hiff.mpr (spared_event hclient rfl hspares)
  have hone : Path (Step (some ⟨[]⟩)) (last (.ok (new ())) tr)
      [⟨.ok s, some (0, .read HttpConn.getRequest 32), .ok t⟩] := by
    rw [hlast]
    exact .cons hst (.nil _)
  have hmoves := (hgoes t rfl).moves 0
  rw [hclient, actOf_self] at hmoves
  obtain ⟨k, hk⟩ : ∃ k, t.client 0 = some k := by
    generalize t.client 0 = o at hmoves
    cases hmoves with
    | event hk => exact ⟨_, rfl⟩
  refine ⟨_, t, k, hp.append hone, ?_, hk, ?_, ?_⟩
  · rw [last_append]
    rfl
  · rw [events_snoc, hnil]
    rfl
  · intro e he
    rcases List.mem_append.mp he with h | h
    · exact hall e h
    · rw [List.mem_singleton.mp h]
      exact ⟨t, rfl⟩

/-- **The process survives** a run of the server exactly if every connection spares the bytes that
come for it.  In every run, each event finds its connection with its handler, and not closed yet if
the stream ends; and a step that ends the process does so in the `on_recv` of one client: no `write`
fails in `BufferIntoNet`, no connection is closed twice, and no assertion of the loops, the pollers
and the server fails. -/
theorem server_survives {main : ι}
    {tr : List (Tr (Except Fatal (HttpServer ι)) (Option (Nat × Called)))}
    (h : Path (Step router) (.ok (new main)) tr) :
    ((∀ e ∈ tr, ∃ s, e.post = .ok s) ↔ ∀ e ∈ tr, Alive (fun s => s.Spared e.act) e.pre) ∧
      ∀ e ∈ tr, Alive (fun s => s.Finds e.act) e.pre ∧
        ∀ f, e.post = .error f → Alive (fun s => s.Fails e.act f) e.pre := by
  have h0 : Alive (Hosts (ι := ι)) (.ok (new main)) := alive_ok (hosts_new main)
  have hlive : ∀ x a y, Alive Hosts x → Step router x a y → ∃ s : HttpServer ι, x = .ok s ∧
      s.Finds a ∧ Leads router s a y := by
    intro x a y hx hst
    obtain ⟨s, rfl⟩ : ∃ s, x = .ok s := by cases hst <;> exact ⟨_, rfl⟩
    exact ⟨s, rfl, finds_step (hx s rfl) hst, leads_step (hx s rfl) hst⟩
  constructor
  · refine h.all_iff (G := fun x a => Alive (fun s => s.Spared a) x)
      (P := fun e => ∃ s, e.post = .ok s) ?_ h0
    intro x a y hx hst
    obtain ⟨s, rfl, -, hleads⟩ := hlive x a y hx hst
    exact ⟨hleads.survives.trans ⟨fun hs => alive_ok hs, fun hs => hs s rfl⟩,
      fun _ t ht => (hleads.goes t ht).hosts⟩
  · intro e he
    refine (h.inv (P := fun e => Alive (fun s => s.Finds e.act) e.pre ∧
      ∀ f, e.post = .error f → Alive (fun s => s.Fails e.act f) e.pre) ?_ h0 e he).2.2
    intro x a y hx hst
    obtain ⟨s, rfl, hfinds, hleads⟩ := hlive x a y hx hst
    exact ⟨fun t ht => (hleads.goes t ht).hosts, alive_ok hfinds,
      fun f hf => alive_ok (hleads.fails f hf)⟩

/-- one client, whose request is read and answered -/
theorem server_survives_answered :
    ∃ tr : List (Tr (Except Fatal (HttpServer Unit)) (Option (Nat × Called))),
      events 0 tr = [.read HttpConn.getRequest 32] ∧
        (∀ e ∈ tr, Alive (fun s => s.Spared e.act) e.pre) ∧
        ∀ e ∈ tr, Alive (fun s => s.Finds e.act) e.pre := by
  obtain ⟨tr, s, k, hp, -, -, hevents, hall⟩ := path_answered
  obtain ⟨hiff, hevery⟩ := server_survives hp
  exact ⟨tr, hevents, hiff.mp hall, fun e he => (hevery e he).1⟩

/-- **The server is a `TcpServer` with an HTTP connection for each client.**  A run that the process
survives is a run of the `TcpServer`; a connection has its handler from `connectEstablished` on; and
the events of a client, whatever happens between them, are a run of one connection. -/
theorem server_refines {main : ι}
    {tr : List (Tr (Except Fatal (HttpServer ι)) (Option (Nat × Called)))} {s : HttpServer ι}
    (h : Path (Step router) (.ok (new main)) tr) (hlast : last (.ok (new main)) tr = .ok s) :
    Reach TcpServer.Step (.ok (.new main)) (.ok s.tcpserver) ∧
      ∀ c, Session router (events c tr) (s.client c) ∧
        ((s.tcpserver.conn c).log ≠ [] ↔ ∃ k, s.client c = some k ∧
          k.sock.conn.status = (s.tcpserver.conn c).status ∧
          k.sock.conn.channel = (s.tcpserver.conn c).channel) := by
  obtain ⟨hhosts, hreach, hsession⟩ := told_path h hlast
  refine ⟨hreach, fun c => ⟨hsession c, fun hlog => ?_, fun ⟨k, hk, _⟩ hnil => ?_⟩⟩
  · obtain ⟨k, hk, hstatus, hchannel, -⟩ := (hhosts.hosted c).exists_client hlog
    exact ⟨k, hk, hstatus, hchannel⟩
  · rw [(hhosts.hosted c).eq_none hnil] at hk
    cases hk

theorem server_refines_answered : ∃ s : HttpServer Unit,
    Session (some ⟨[]⟩) [.read HttpConn.getRequest 32] (s.client 0) ∧
      Reach TcpServer.Step (.ok (.new ())) (.ok s.tcpserver) := by
  obtain ⟨tr, s, k, hp, hlast, -, hevents, -⟩ := path_answered
  obtain ⟨hreach, hclients⟩ := server_refines hp hlast
  exact ⟨s, hevents ▸ (hclients 0).1, hreach⟩

/-- **Every client is served by itself.**  Whatever the loops and the other clients do, a client has
been handed the reply to the bytes that it has sent; it has got all of it, or nothing where a `write`
for it failed; and its connection is shut exactly once these bytes hold a request or break the
grammar. -/
theorem clients_served {main : ι}
    {tr : List (Tr (Except Fatal (HttpServer ι)) (Option (Nat × Called)))} {s : HttpServer ι}
    (h : Path (Step router) (.ok (new main)) tr) (hlast : last (.ok (new main)) tr = .ok s) {c : Nat}
    {k : HttpConn} (hk : s.client c = some k) :
    (∃ status, k.sock.accepted = reply router status (HttpConn.delivered (events c tr))) ∧
      (k.sock.sent = k.sock.accepted ∨
        k.sock.sent = [] ∧ ∃ a ∈ events c tr, HttpConn.FailsWrite a) ∧
      (k.sock.halfClosed = true ↔
        Accepts .requestline 0 (HttpConn.delivered (events c tr)) ∨
        Rejects .requestline (HttpConn.delivered (events c tr))) := by
  have hsession := (told_path h hlast).session c
  rw [hk] at hsession
  cases hsession with
  | run m status hp hl hacts =>
    have hserved := HttpConn.served_path router m status hp hl
    rw [hacts] at hserved
    refine ⟨⟨status, hserved.accepted⟩, hserved.sent.imp_right fun ⟨hnil, e, he, hf⟩ => ?_,
      hserved.halfClosed.trans (HttpConn.run_ne_none_iff m _)⟩
    exact ⟨hnil, e.act, hacts ▸ List.mem_map_of_mem he, hf⟩

theorem clients_served_answered : ∃ k : HttpConn,
    (∃ status, k.sock.accepted = reply (some ⟨[]⟩) status HttpConn.getRequest) ∧
      (k.sock.halfClosed = true ↔ Accepts .requestline 0 HttpConn.getRequest ∨
        Rejects .requestline HttpConn.getRequest) := by
  obtain ⟨tr, s, k, hp, hlast, hk, hevents, -⟩ := path_answered
  obtain ⟨haccepted, -, hhalf⟩ := clients_served hp hlast hk
  have hbytes : HttpConn.delivered (events 0 tr) = HttpConn.getRequest := by
    rw [hevents, HttpConn.delivered, if_neg (by decide), HttpConn.delivered, List.append_nil]
  rw [hbytes] at haccepted hhalf
  exact ⟨k, haccepted, hhalf⟩

end HttpServer

end Feipu
