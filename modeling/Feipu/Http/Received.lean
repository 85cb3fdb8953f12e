import Feipu.Http.Bounds
import Feipu.Http.Fields

/-!
# The paths that reach the router

`on_recv` hands a request to the router when `parse_http` has returned `PARSE_END`, and also when it
has returned `PARSE_ERROR`, whose branch falls through.

* `received_iff`   the paths of these requests are those without NUL, blank, CR and LF that leave
                   room in an `int` for the rest of a request line.
-/

namespace Feipu
open CStr CStr.Bounded Lines Consume Trace Refine

/-- a request line can carry the path -/
structure Carried (path : Bytes) : Prop where
  bytes : ∀ c ∈ path, c ≠ 0 ∧ c ≠ 32 ∧ c ≠ 13 ∧ c ≠ 10
  length : path.length + 6 < 2 ^ 31

theorem carried_nil : Carried [] := ⟨fun _ h => absurd h List.not_mem_nil, by decide⟩

theorem carried_slash : Carried (asc "/") :=
  ⟨List.forall_mem_singleton.mpr (by decide), by show 1 + 6 < 2 ^ 31; omega⟩

/-! ## a request line -/

/-- every method has three letters at least -/
theorem setMethod_length {req req' : HttpRequest} {w : Bytes} (h0 : 0 ∉ w)
    (h : req.setMethod w = some req') : 3 ≤ w.length := by
  have hall : ∀ m ∈ methodNames, 3 ≤ m.length := by decide
  refine hall w ((mem_methodNames_iff h0).mpr ?_)
  intro hm
  rw [HttpRequest.setMethod, if_pos hm] at h
  cases h

theorem zero_notMem_word (s : Bytes) : 0 ∉ s.takeWhile inWord := by
  intro h
  exact absurd (List.mem_takeWhile_imp h) (by decide)

/-- a path that is stored leaves room for a method, two blanks and the NUL -/
theorem parseRequestLine_path {text : Bytes} {req : HttpRequest} (hc : Counts text req) :
    (parseRequestLine text req).2.path = req.path ∨
      (parseRequestLine text req).2.path.length + 6 < 2 ^ 31 := by
  have hmethod : text.take (wordEnd text 0) = (text.drop 0).takeWhile inWord :=
    take_wordEnd text 0
  unfold Counts at hc
  dsimp only at hc
  rw [hmethod] at hc
  rw [parseRequestLine_wordEnd]
  by_cases hz : at' text (wordEnd text 0) = 0
  · rw [if_pos hz]
    exact .inl rfl
  rw [if_neg hz] at hc ⊢
  cases hm : req.setMethod ((text.drop 0).takeWhile inWord) with
  | none => exact .inl rfl
  | some req1 =>
    have hlen := setMethod_length (zero_notMem_word _) hm
    have hword : wordEnd text 0 = ((text.drop 0).takeWhile inWord).length := Nat.zero_add _
    obtain rfl := setMethod_some hm
    rw [hm] at hc
    have hc := hc.2 (Option.some_ne_none _)
    dsimp only
    by_cases hz' : at' text (wordEnd text (wordEnd text 0 + 1)) = 0
    · rw [if_pos hz']
      exact .inl rfl
    rw [if_neg hz'] at hc ⊢
    have hlt : wordEnd text (wordEnd text 0 + 1) < (cstr text).length :=
      wordEnd_lt (wordEnd_lt (Nat.zero_le _) hz) hz'
    cases hu : HttpRequest.setUrl _ ((text.drop (wordEnd text 0 + 1)).takeWhile inWord) with
    | none => exact .inl rfl
    | some req2 =>
      have hne : (text.drop (wordEnd text 0 + 1)).takeWhile inWord ≠ [] := by
        intro he
        rw [setUrl_eq_none.mpr he] at hu
        cases hu
      have hpos := List.length_pos_iff.mpr hne
      obtain rfl := setUrl_some hu
      have hend : wordEnd text (wordEnd text 0 + 1) = wordEnd text 0 + 1 +
          ((text.drop (wordEnd text 0 + 1)).takeWhile inWord).length := rfl
      have htotal := hc.2 (by omega)
      have hfits : ((text.drop (wordEnd text 0 + 1)).takeWhile inWord).length + 6 < 2 ^ 31 := by
        omega
      right
      dsimp only
      split
      · exact hfits
      · rename_i req3 hv
        obtain rfl := setVersion_some hv
        exact hfits

theorem carried_requestLine {s l r : Bytes} {req : HttpRequest} (hcut : cut 13 10 s = .line l r)
    (hc : Counts (l ++ [0]) req) (h : Carried req.path) :
    Carried (parseRequestLine (cstr l) req).2.path := by
  have hplain := plain_line hcut
  obtain ⟨m, path, version, heq, hpath, -⟩ := parseRequestLine_stores (cstr l) req
  have hcstr : cstr (cstr l) = cstr (l ++ [0]) := by rw [cstr_cstr, cstr_append_zero]
  have hlen := parseRequestLine_path hc
  rw [← parseRequestLine_congr hcstr] at hlen
  rw [heq] at hlen ⊢
  change path = req.path ∨ path.length + 6 < 2 ^ 31 at hlen
  show Carried path
  rcases hpath with hsame | ⟨h32, hmem⟩
  · rw [hsame]
    exact h
  · rcases hlen with hsame | hlen
    · rw [hsame]
      exact h
    · refine ⟨fun c hx => ?_, hlen⟩
      exact ⟨fun e => hplain.2.2 (e ▸ hmem c hx), fun e => h32 (e ▸ hx),
        fun e => hplain.1 (e ▸ hmem c hx), fun e => hplain.2.1 (e ▸ hmem c hx)⟩

/-! ## a parse -/

theorem carried_roundOn {p : Parse} {s : Bytes}
    (hc : p.1 = .requestline → ∀ l r, cut 13 10 s = .line l r → Counts (l ++ [0]) p.2)
    (h : Carried p.2.path) : Carried (roundOn p s).2.path := by
  rcases roundOn_cases p s with heq | ⟨d, heq⟩ | ⟨l, r, hcut, ⟨hcs, heq⟩ | ⟨-, heq⟩⟩
  · rw [heq]
    exact h
  · rw [heq]
    exact h
  · rw [heq]
    exact carried_requestLine hcut (hc hcs l r hcut) h
  · rw [heq]
    rcases parseHeaders_stores (zero_notMem_cstr l) p.2 with hstores | ⟨k, v, -, hstores⟩
    · rw [hstores]
      exact h
    · rw [hstores]
      exact h

theorem run_carried (p : Parse) (s : Bytes)
    (hc : p.1 = .requestline → ∀ l r, cut 13 10 s = .line l r → Counts (l ++ [0]) p.2)
    (h : Carried p.2.path) : Carried (run textStep p s).2.1.2.path := by
  have hround := carried_roundOn hc h
  induction p, s using run_induction stable_textStep with
  | more p s hv =>
    rw [run_more hv]
    exact h
  | stop p s status n q hv =>
    rw [run_stop hv]
    rw [roundOn, hv] at hround
    exact hround
  | take p s n q hv ih =>
    rw [run_take stable_textStep hv]
    rw [roundOn, hv] at hround
    have hlater : q.1 = .requestline → ∀ l r, cut 13 10 (s.drop n) = .line l r →
        Counts (l ++ [0]) q.2 := fun hq => absurd hq (textStep_take hv)
    exact ih hlater hround (carried_roundOn hlater hround)

namespace Parsing

/-- the request is one with which `on_recv` calls `handle_http` -/
def Received (req : HttpRequest) : Prop :=
  ∃ router m c p, Reach Step (some (start router m c)) (some p) ∧
    (p.returned = .parseEnd ∨ p.returned = .parseError) ∧ p.handler.req = req

/-- the scan position fits the buffer, and the path has been carried by a request line -/
def Carrying (x : Option Parsing) : Prop :=
  ∀ p, x = some p → Tracks p.handler p.buffer ∧ Carried p.handler.req.path

theorem carrying_step {x y : Option Parsing} {a : Act} (hx : Carrying x) (h : Step x a y) :
    Carrying y := by
  cases h with
  | mk p a =>
    obtain ⟨ht, hpath⟩ := hx p rfl
    cases a with
    | append chunk =>
      intro q hq
      obtain rfl := Option.some.inj hq
      exact ⟨ht.append chunk, hpath⟩
    | parse =>
      intro q hq
      obtain ⟨hin, hout⟩ := parseHttpIn_spec ht
      obtain ⟨h', b', hrun, hf⟩ := parseHttp_spec ht
      by_cases hc : p.handler.Countable p.buffer
      · rw [exec, hin hc, hrun] at hq
        obtain rfl := Option.some.inj hq
        refine ⟨hf.tracks, ?_⟩
        show Carried h'.req.path
        rw [show h'.req = _ from congrArg Prod.snd hf.state]
        exact run_carried (p.handler.checkState, p.handler.req) _ hc hpath
      · rw [exec, hout hc] at hq
        cases hq

theorem carried_received {req : HttpRequest} (h : Received req) : Carried req.path := by
  obtain ⟨router, m, c, p, hreach, -, rfl⟩ := h
  have hstart : Carrying (some (start router m c)) := by
    intro q hq
    obtain rfl := Option.some.inj hq
    exact ⟨tracks_zero _ _ rfl, carried_nil⟩
  have hcarrying : Carrying (some p) :=
    hreach.inv (fun _ _ _ hx hst => carrying_step hx hst) hstart
  exact (hcarrying p rfl).2

/-- one line in one chunk, which the parser refuses -/
theorem received_line {l : Bytes} {req : HttpRequest} (hl : Clean 13 10 l)
    (hc : Counts (l ++ [0]) (.new .get))
    (hline : parseRequestLine (cstr l) (.new .get) = (.parseError, req)) : Received req := by
  generalize hb : Buffer.new.append (l ++ [13, 10]) = b
  generalize hh : (HttpHandler.fresh .get 0).init none = h
  have hstate : (h.checkState, h.req) = (.requestline, .new .get) := by rw [← hh]; rfl
  have hread : b.readable = l ++ 13 :: 10 :: [] := by
    rw [← hb, Buffer.readable_append, Buffer.readable_new, List.nil_append]
  have hcut : cut 13 10 b.readable = .line l [] := by
    rw [hread]
    exact cut_line 13 10 hl []
  have ht : Tracks h b := tracks_zero _ _ (by rw [← hh]; rfl)
  have hcount : h.Countable b := by
    rw [countable_line hcut, show h.req = .new .get from congrArg Prod.snd hstate]
    exact fun _ => hc
  have hstep : textStep (h.checkState, h.req) b.readable =
      .stop .parseError (l.length + 2) (.requestline, req) := by
    rw [hstate, textStep_line (fun he => by cases he) hcut]
    show lineVerdict .requestline (cstr l) (.new .get) _ = _
    rw [lineVerdict, hline]
    exact if_pos (.inl rfl)
  obtain ⟨h', b', hrun, hf⟩ := parseHttp_spec ht
  rw [run_stop hstep] at hrun hf
  have happend := Step.mk (start none .get 0) (.append (l ++ [13, 10]))
  have hparse := Step.mk ⟨h, b, .parseRecv⟩ .parse
  rw [exec, (parseHttpIn_spec ht).1 hcount, hrun] at hparse
  rw [← hh, ← hb] at hparse
  exact ⟨none, .get, 0, _, (Reach.refl.snoc happend).snoc hparse, .inr rfl, congrArg Prod.snd hf.state⟩

/-- **The paths that reach the router** are those that a request line can carry. -/
theorem received_iff (path : Bytes) : (∃ req, Received req ∧ req.path = path) ↔ Carried path := by
  constructor
  · rintro ⟨req, hreq, rfl⟩
    exact carried_received hreq
  · intro h
    by_cases hnil : path = []
    · -- an empty line stores nothing
      refine ⟨_, received_line (clean_nil 13 10) (counts_of_short (by decide) _) rfl, ?_⟩
      rw [hnil]
      rfl
    · have h0 : 0 ∉ path := fun hx => (h.bytes 0 hx).1 rfl
      have h32 : 32 ∉ path := fun hx => (h.bytes 32 hx).2.1 rfl
      -- the version is missing
      let l : Bytes := asc "GET" ++ 32 :: (path ++ 32 :: [])
      have hlen : l.length = path.length + 5 := by simp [l, asc]
      have hl0 : 0 ∉ l := by
        intro hx
        rcases List.mem_append.mp hx with hx | hx
        · exact absurd hx (by decide)
        rcases List.mem_cons.mp hx with hx | hx
        · cases hx
        rcases List.mem_append.mp hx with hx | hx
        · exact h0 hx
        · exact absurd hx (by decide)
      have hclean : Clean 13 10 l := by
        intro c hx
        rcases List.mem_append.mp hx with hx | hx
        · have hget : ∀ c ∈ asc "GET", c ≠ 13 ∧ c ≠ 10 := by decide +kernel
          exact hget c hx
        rcases List.mem_cons.mp hx with rfl | hx
        · decide
        rcases List.mem_append.mp hx with hx | hx
        · exact (h.bytes c hx).2.2
        · obtain rfl := List.mem_singleton.mp hx
          decide
      have hcount : Counts (l ++ [0]) (.new .get) := by
        refine counts_of_short ?_ _
        rw [cstr_append_zero, cstr_of_notMem hl0, hlen]
        exact h.length
      have hline : parseRequestLine (cstr l) (.new .get) = (.parseError,
          { HttpRequest.new .get with method := httpMethodEnum (asc "GET"), path }) := by
        rw [cstr_of_notMem hl0, parseRequestLine_words (by decide) (by decide) hnil h0 h32]
        rfl
      exact ⟨_, received_line hclean hcount hline, rfl⟩

end Parsing

end Feipu
