import Feipu.Http.Bounds
import Feipu.Http.Grammar

/-!
# What an `int` can count of a stream

`parse_chunks` and `parse_grammar` speak of the parser with unbounded positions.  Here the same two
results for the checked parser, in which the `int index` of `parse_request_line` overflows: both
hold exactly when an `int` can count the first line of the stream (`CountsFirst`).

* `feedChunksIn_spec`   whatever the chunks are, the checked parser fails on a stream whose first
                        line no `int` counts, and otherwise it is the parser;
* `parse_chunks_iff`    the cuts of the stream do not matter exactly on the other streams;
* `parse_grammar_iff`   and exactly there the parser accepts its grammar.
-/

namespace Feipu
open CStr CStr.Bounded Lines Consume Refine

/-- an `int` can count the first line of the stream, as far as `parse_request_line` reads it -/
def CountsFirst (s : Bytes) (req : HttpRequest) : Prop :=
  ∀ l r, s = l ++ 13 :: 10 :: r → Clean 13 10 l → Counts (l ++ [0]) req

section
variable {s : Bytes} {req : HttpRequest}

theorem countsFirst_line {l r : Bytes} (hcut : cut 13 10 s = .line l r) :
    CountsFirst s req ↔ Counts (l ++ [0]) req := by
  constructor
  · intro h
    obtain ⟨hl, hs⟩ := (cut_line_iff cr_ne_lf).mp hcut
    exact h l r hs hl
  · intro h l' r' hs hl
    have hcut' := (cut_line_iff cr_ne_lf).mpr ⟨hl, hs⟩
    obtain ⟨rfl, -⟩ := Cut.line.inj (hcut.symm.trans hcut')
    exact h

theorem countsFirst_noLine (hcut : ∀ l r, cut 13 10 s ≠ .line l r) : CountsFirst s req :=
  fun l r hs hl => absurd ((cut_line_iff cr_ne_lf).mpr ⟨hl, hs⟩) (hcut l r)

end

theorem countable_iff {h : HttpHandler} {b : Buffer} (hcs : h.checkState = .requestline) :
    h.Countable b ↔ CountsFirst b.readable h.req := by
  constructor
  · intro hc l r hs hl
    exact hc hcs l r ((cut_line_iff cr_ne_lf).mpr ⟨hl, hs⟩)
  · intro hc _ l r hcut
    exact (countsFirst_line hcut).mp hc

/-! ## a stream in chunks -/

/-- `feedChunks` with the checked parser -/
def feedChunksIn (h : HttpHandler) (b : Buffer) : List Bytes → Option (ParseStatus × HttpHandler)
  | [] => some (.parseRecv, h)
  | c :: cs =>
    match h.parseHttpIn (b.append c) with
    | none => none
    | some (status, h, b) =>
      if status = .parseRecv then feedChunksIn h b cs else some (status, h)

/-- behind the request line a run stays behind it -/
theorem run_later {p : Parse} (s : Bytes) (hp : p.1 ≠ .requestline) :
    (run textStep p s).2.1.1 ≠ .requestline := by
  induction p, s using run_induction stable_textStep with
  | more p s hv =>
    rw [run_more hv]
    exact hp
  | stop p s status n q hv =>
    rw [run_stop hv]
    by_cases hcs : p.1 = .content
    · rw [textStep_content hcs] at hv
      split at hv
      · cases hv
        exact RequestState.noConfusion
      · cases hv
    cases hcut : cut 13 10 s with
    | more =>
      rw [textStep_more hcs hcut] at hv
      cases hv
    | bad =>
      rw [textStep_bad hcs hcut] at hv
      cases hv
      exact hp
    | line l r =>
      rw [textStep_line hcs hcut] at hv
      unfold lineVerdict at hv
      cases hst : p.1 with
      | content => exact absurd hst hcs
      | requestline => exact absurd hst hp
      | header =>
        rw [hst] at hv
        dsimp only at hv
        split at hv
        · cases hv
        · split at hv
          · cases hv
          · cases hv
            exact RequestState.noConfusion
  | take p s n q hv ih =>
    rw [run_take stable_textStep hv]
    exact ih (textStep_take hv)

theorem parseHttp_later {h h' : HttpHandler} {b b' : Buffer} {status : ParseStatus}
    (ht : Tracks h b) (hcs : h.checkState ≠ .requestline)
    (hrun : h.parseHttp b = some (status, h', b')) :
    Tracks h' b' ∧ h'.checkState ≠ .requestline := by
  obtain ⟨h1, b1, hrun1, hf⟩ := parseHttp_spec ht
  cases hrun.symm.trans hrun1
  have hlater := run_later b.readable (p := (h.checkState, h.req)) hcs
  rw [← hf.state] at hlater
  exact ⟨hf.tracks, hlater⟩

theorem feedChunksIn_later (cs : List Bytes) {h : HttpHandler} {b : Buffer} (ht : Tracks h b)
    (hcs : h.checkState ≠ .requestline) : feedChunksIn h b cs = feedChunks h b cs := by
  induction cs generalizing h b with
  | nil => rfl
  | cons c cs ih =>
    have hin := (parseHttpIn_spec (ht.append c)).1 (countable_later hcs)
    rw [feedChunksIn, feedChunks, hin]
    cases hrun : h.parseHttp (b.append c) with
    | none => rfl
    | some out =>
      obtain ⟨status, h', b'⟩ := out
      obtain ⟨ht', hcs'⟩ := parseHttp_later (ht.append c) hcs hrun
      by_cases hrecv : status = .parseRecv
      · simp only [hrecv, if_true]
        exact ih ht' hcs'
      · simp only [hrecv, if_false]

/-- a parse that brings a request line ends or goes on behind it -/
theorem parseHttp_line {h h' : HttpHandler} {b b' : Buffer} {l r : Bytes} (ht : Tracks h b)
    (hcs : h.checkState = .requestline) (hcut : cut 13 10 b.readable = .line l r)
    (hrun : h.parseHttp b = some (.parseRecv, h', b')) :
    Tracks h' b' ∧ h'.checkState ≠ .requestline := by
  obtain ⟨h1, b1, hrun1, hf⟩ := parseHttp_spec ht
  have hne : (h.checkState, h.req).1 ≠ .content := by
    rw [hcs]
    exact RequestState.noConfusion
  have hstep := textStep_line hne hcut
  rcases lineVerdict_cases hne (cstr l) h.req (l.length + 2) with ⟨q, hq⟩ | ⟨st, q, hst, hq⟩
  · have hv := hstep.trans hq
    have hlater := run_later (b.readable.drop (l.length + 2)) (textStep_take hv)
    rw [run_take stable_textStep hv] at hrun1 hf
    obtain ⟨-, he⟩ := Prod.mk.inj (Option.some.inj (hrun.symm.trans hrun1))
    obtain ⟨rfl, rfl⟩ := Prod.mk.inj he
    rw [← hf.state] at hlater
    exact ⟨hf.tracks, hlater⟩
  · rw [run_stop (hstep.trans hq)] at hrun1
    have he := congrArg Prod.fst (Option.some.inj (hrun.symm.trans hrun1))
    rcases hst with rfl | rfl
    · cases he
    · cases he

/-- **The chunks fail exactly on a first line that no `int` counts**: on the others the checked
parser is the parser. -/
theorem feedChunksIn_spec (cs : List Bytes) {h : HttpHandler} {b : Buffer} (ht : Tracks h b)
    (hcs : h.checkState = .requestline) (hb : cut 13 10 b.readable = .more) :
    Checked (CountsFirst (b.readable ++ cs.flatten) h.req) (feedChunksIn h b cs)
      (feedChunks h b cs) := by
  induction cs generalizing h b with
  | nil =>
    have hnone : CountsFirst (b.readable ++ [].flatten) h.req := countsFirst_noLine fun l r he => by
      rw [List.flatten_nil, List.append_nil, hb] at he
      cases he
    exact (Checked.refl _).imp (iff_of_true trivial hnone)
  | cons c cs ih =>
    have ht' := ht.append c
    have hspec := parseHttpIn_spec ht'
    rw [feedChunksIn, feedChunks]
    rw [List.flatten_cons, ← List.append_assoc, ← Buffer.readable_append]
    generalize b.append c = b' at ht' hspec ⊢
    have hne : (h.checkState, h.req).1 ≠ .content := by
      rw [hcs]
      exact RequestState.noConfusion
    cases hcut : cut 13 10 b'.readable with
    | more =>
      have hc : h.Countable b' := countable_noLine fun l r he => by rw [hcut] at he; cases he
      obtain ⟨h1, b1, hrun, hf⟩ := parseHttp_spec ht'
      rw [run_more (textStep_more hne hcut)] at hrun hf
      have hst : h1.checkState = .requestline := (congrArg Prod.fst hf.state).trans hcs
      have hreq : h1.req = h.req := congrArg Prod.snd hf.state
      rw [hspec.1 hc, hrun]
      simp only [statusOf, if_true]
      have hfeed := ih hf.tracks hst (by rw [hf.rest]; exact hcut)
      rw [hf.rest, hreq] at hfeed
      exact hfeed
    | bad =>
      have hc : h.Countable b' := countable_noLine fun l r he => by rw [hcut] at he; cases he
      have hbad := cut_bad_append cr_ne_lf hcut cs.flatten
      have hfirst : CountsFirst (b'.readable ++ cs.flatten) h.req :=
        countsFirst_noLine fun l r he => by rw [hbad] at he; cases he
      obtain ⟨h1, b1, hrun, -⟩ := parseHttp_spec ht'
      rw [run_stop (textStep_bad hne hcut)] at hrun
      rw [hspec.1 hc, hrun]
      exact (Checked.refl _).imp (iff_of_true trivial hfirst)
    | line l r =>
      have hiff : h.Countable b' ↔ CountsFirst (b'.readable ++ cs.flatten) h.req := by
        rw [countable_iff hcs, countsFirst_line hcut,
          countsFirst_line (cut_line_append cr_ne_lf hcut cs.flatten)]
      refine Checked.imp hiff ⟨?_, ?_⟩
      · intro hc
        rw [hspec.1 hc]
        cases hrun : h.parseHttp b' with
        | none => rfl
        | some out =>
          obtain ⟨status, h1, b1⟩ := out
          by_cases hrecv : status = .parseRecv
          · subst hrecv
            obtain ⟨ht1, hcs1⟩ := parseHttp_line ht' hcs hcut hrun
            simp only [if_true]
            exact feedChunksIn_later cs ht1 hcs1
          · simp only [hrecv, if_false]
      · intro hc
        rw [hspec.2 hc]

theorem feedChunksIn_fresh (m : HttpMethod) (c : HttpStatus) (cs : List Bytes) :
    Checked (CountsFirst cs.flatten (HttpHandler.fresh m c).req) (feedChunksIn (.fresh m c) .new cs)
      (feedChunks (.fresh m c) .new cs) := by
  have hspec := feedChunksIn_spec cs (tracks_zero (.fresh m c) .new rfl) rfl (by decide)
  rw [Buffer.readable_new, List.nil_append] at hspec
  exact hspec

/-- **The cuts of the stream do not matter** exactly when an `int` can count its first line. -/
theorem parse_chunks_iff (m : HttpMethod) (c : HttpStatus) (cs cs' : List Bytes)
    (hcs : cs.flatten = cs'.flatten) :
    (∃ status h h', feedChunksIn (.fresh m c) .new cs = some (status, h) ∧
      feedChunksIn (.fresh m c) .new cs' = some (status, h') ∧ h.req = h'.req) ↔
    CountsFirst cs.flatten (HttpHandler.fresh m c).req := by
  have hspec := feedChunksIn_fresh m c cs
  have hspec' := feedChunksIn_fresh m c cs'
  rw [← hcs] at hspec'
  constructor
  · rintro ⟨status, h, h', hrun, -, -⟩
    by_contra hc
    rw [hspec.2 hc] at hrun
    cases hrun
  · intro hc
    rw [hspec.1 hc, hspec'.1 hc]
    exact parse_chunks m c cs cs' hcs

/-- a cut between CR and LF -/
theorem parse_chunks_iff_crlf :
    (∃ status h h', feedChunksIn (.fresh .get 0) .new [asc "GET / HTTP/1.1\r", asc "\n\r\n"]
        = some (status, h) ∧
      feedChunksIn (.fresh .get 0) .new [asc "GET / HTTP/1.1\r\n\r\n"] = some (status, h') ∧
      h.req = h'.req) ∧
    CountsFirst (asc "GET / HTTP/1.1\r\n\r\n") (HttpHandler.fresh .get 0).req := by
  have hcut : cut 13 10 (asc "GET / HTTP/1.1\r\n\r\n") = .line (asc "GET / HTTP/1.1") [13, 10] := by
    decide
  have hcount : CountsFirst (asc "GET / HTTP/1.1\r\n\r\n") (HttpHandler.fresh .get 0).req :=
    (countsFirst_line hcut).mpr (counts_of_short (by decide) _)
  exact ⟨(parse_chunks_iff .get 0 [asc "GET / HTTP/1.1\r", asc "\n\r\n"]
    [asc "GET / HTTP/1.1\r\n\r\n"] (by decide)).mpr hcount, hcount⟩

/-- the `2 ^ 31` bytes and their CR LF, in one chunk or in two -/
theorem not_parse_chunks : ¬∀ cs cs' : List Bytes, cs.flatten = cs'.flatten →
    ∃ status h h', feedChunksIn (.fresh .get 0) .new cs = some (status, h) ∧
      feedChunksIn (.fresh .get 0) .new cs' = some (status, h') ∧ h.req = h'.req := by
  intro hall
  obtain ⟨n, hn⟩ : ∃ n, 2 ^ 31 ≤ n := ⟨_, Nat.le_refl _⟩
  let cs : List Bytes := [List.replicate n 65 ++ [13, 10]]
  let cs' : List Bytes := [List.replicate n 65, [13, 10]]
  have hflat : cs.flatten = cs'.flatten := by simp [cs, cs']
  obtain ⟨status, h, h', hrun, -, -⟩ := hall cs cs' hflat
  have hlong : ¬CountsFirst cs.flatten (HttpHandler.fresh .get 0).req := by
    have hb : (Buffer.new.append (List.replicate n 65 ++ [13, 10])).readable = cs.flatten := by
      rw [Buffer.readable_append, Buffer.readable_new]
      simp [cs]
    rw [← hb, ← countable_iff (h := .fresh .get 0) rfl]
    exact Parsing.not_countable hn rfl (by rw [hb]; simp [cs])
  rw [(feedChunksIn_fresh .get 0 cs).2 hlong] at hrun
  cases hrun

/-! ## the grammar -/

/-- **The parser accepts exactly its grammar** exactly when an `int` can count the first line. -/
theorem parse_grammar_iff (m : HttpMethod) (c : HttpStatus) (b : Buffer) (s : Bytes)
    (hs : b.readable = s)
    (hnul : ∀ ls, HeadLines s ls → ∀ l ∈ ls, (0 : UInt8) ∉ l)
    (hlen : ∀ ls, HeadLines s ls → ∀ l ∈ ls.tail, ContentLengthLine l → LengthLine l) :
    (∃ status h' b', (HttpHandler.fresh m c).parseHttpIn b = some (status, h', b') ∧
      (status = .parseEnd ↔ HoldsRequest s) ∧
      (status = .parseError ↔ BreaksGrammar s) ∧
      (status = .parseRecv ↔ ¬ HoldsRequest s ∧ ¬ BreaksGrammar s)) ↔
    CountsFirst s (HttpHandler.fresh m c).req := by
  have hspec := parseHttpIn_spec (tracks_zero (HttpHandler.fresh m c) b rfl)
  rw [countable_iff rfl, hs] at hspec
  constructor
  · rintro ⟨status, h', b', hrun, -⟩
    by_contra hc
    rw [hspec.2 hc] at hrun
    cases hrun
  · intro hc
    rw [hspec.1 hc]
    exact parse_grammar m c b s hs hnul hlen

/-- a stream without NUL has lines without NUL -/
theorem HeadLines.noNul {s : Bytes} (h0 : (0 : UInt8) ∉ s) {ls : List Bytes} (h : HeadLines s ls) :
    ∀ l ∈ ls, (0 : UInt8) ∉ l := by
  obtain ⟨rest, rfl, -, -⟩ := h
  intro l hl hmem
  refine h0 (List.mem_append_left _ ?_)
  exact List.mem_flatMap.mpr ⟨l, hl, List.mem_append_left _ hmem⟩

/-- one line and nothing behind it -/
theorem HeadLines.single {l : Bytes} (hl : Clean 13 10 l) {ls : List Bytes}
    (h : HeadLines (l ++ [13, 10]) ls) : ls.tail = [] := by
  obtain ⟨rest, hs, hclean, -⟩ := h
  cases ls with
  | nil => rfl
  | cons l0 ls =>
    have hs' : joinLines 13 10 [l] ++ [] = joinLines 13 10 (l0 :: ls) ++ rest := by
      rw [← hs]
      simp
    obtain ⟨-, htail⟩ := joinLines_cons_inj 13 10 hl (hclean l0 List.mem_cons_self) hs'
    cases ls with
    | nil => rfl
    | cons l1 ls =>
      rw [joinLines_cons] at htail
      have hlen := congrArg List.length htail
      simp at hlen

/-- one line of `2 ^ 31` bytes: no NUL, no header line -/
theorem not_parse_grammar : ¬∀ (b : Buffer) (s : Bytes), b.readable = s →
    (∀ ls, HeadLines s ls → ∀ l ∈ ls, (0 : UInt8) ∉ l) →
    (∀ ls, HeadLines s ls → ∀ l ∈ ls.tail, ContentLengthLine l → LengthLine l) →
    ∃ status h' b', (HttpHandler.fresh .get 0).parseHttpIn b = some (status, h', b') ∧
      (status = .parseEnd ↔ HoldsRequest s) ∧
      (status = .parseError ↔ BreaksGrammar s) ∧
      (status = .parseRecv ↔ ¬ HoldsRequest s ∧ ¬ BreaksGrammar s) := by
  intro hall
  obtain ⟨n, hn⟩ : ∃ n, 2 ^ 31 ≤ n := ⟨_, Nat.le_refl _⟩
  let s : Bytes := List.replicate n 65 ++ [13, 10]
  have hbytes : ∀ c ∈ List.replicate n (65 : UInt8), c = 65 := fun c hc => List.eq_of_mem_replicate hc
  have hclean : Clean 13 10 (List.replicate n (65 : UInt8)) := by
    intro c hc
    rw [hbytes c hc]
    decide
  have h0 : (0 : UInt8) ∉ s := by
    intro hmem
    rcases List.mem_append.mp hmem with hmem | hmem
    · exact absurd (hbytes 0 hmem) (by decide)
    · exact absurd hmem (by decide)
  have hb : (Buffer.new.append s).readable = s := by
    rw [Buffer.readable_append, Buffer.readable_new, List.nil_append]
  obtain ⟨status, h', b', hrun, -⟩ := hall (Buffer.new.append s) s hb
    (fun ls hls => hls.noNul h0)
    (fun ls hls l hl => by
      rw [HeadLines.single hclean hls] at hl
      cases hl)
  have hlong : ¬(HttpHandler.fresh .get 0).Countable (Buffer.new.append s) := Parsing.not_countable hn rfl hb
  rw [(parseHttpIn_spec (tracks_zero _ _ rfl)).2 hlong] at hrun
  cases hrun

/-- a request with a body, and one byte after it -/
def postRequest : Bytes := asc "POST /a HTTP/1.1\r\nContent-length: 3\r\n\r\nabcd"

/-- its head holds no NUL, and the length line is a number -/
theorem head_postRequest :
    (∀ ls, HeadLines postRequest ls → ∀ l ∈ ls, (0 : UInt8) ∉ l) ∧
    ∀ ls, HeadLines postRequest ls → ∀ l ∈ ls.tail, ContentLengthLine l → LengthLine l := by
  have hpost : postRequest =
      joinLines 13 10 [asc "POST /a HTTP/1.1", asc "Content-length: 3", []] ++ asc "abcd" := by
    decide
  constructor
  · exact fun ls h => h.noNul (by decide)
  · rintro ls ⟨rest, hs, hclean, hne⟩ l hl _
    rw [hpost] at hs
    cases ls with
    | nil => cases hl
    | cons l0 ls =>
      obtain ⟨hl0, hclean⟩ := List.forall_mem_cons.mp hclean
      obtain ⟨-, h0⟩ := joinLines_cons_inj 13 10 (by decide) hl0 hs
      cases ls with
      | nil => cases hl
      | cons l1 ls =>
        obtain ⟨hl1, hls⟩ := List.forall_mem_cons.mp hclean
        obtain ⟨rfl, h1⟩ := joinLines_cons_inj 13 10 (by decide) hl1 h0
        cases ls with
        | nil =>
          obtain rfl := List.mem_singleton.mp hl
          exact ⟨asc "Content-length:", asc " ", asc "3", rfl, by decide,
            List.forall_mem_singleton.mpr (by decide), by decide,
            List.forall_mem_singleton.mpr (by decide), by decide⟩
        | cons l2 ls =>
          obtain ⟨hl2, -⟩ := List.forall_mem_cons.mp hls
          obtain ⟨rfl, -⟩ := joinLines_cons_inj 13 10 (clean_nil 13 10) hl2 h1
          exact absurd rfl (hne [] (by simp))

theorem parse_grammar_iff_post :
    (∃ status h' b', (HttpHandler.fresh .get 0).parseHttpIn (Buffer.new.append postRequest) =
        some (status, h', b') ∧
      (status = .parseEnd ↔ HoldsRequest postRequest) ∧
      (status = .parseError ↔ BreaksGrammar postRequest) ∧
      (status = .parseRecv ↔ ¬ HoldsRequest postRequest ∧ ¬ BreaksGrammar postRequest)) ∧
    CountsFirst postRequest (HttpHandler.fresh .get 0).req := by
  have hcut : cut 13 10 postRequest =
      .line (asc "POST /a HTTP/1.1") (asc "Content-length: 3\r\n\r\nabcd") := by decide
  have hcount : CountsFirst postRequest (HttpHandler.fresh .get 0).req :=
    (countsFirst_line hcut).mpr (counts_of_short (by decide) _)
  have hb : (Buffer.new.append postRequest).readable = postRequest := by
    rw [Buffer.readable_append, Buffer.readable_new, List.nil_append]
  exact ⟨(parse_grammar_iff .get 0 (Buffer.new.append postRequest) postRequest hb
    head_postRequest.1 head_postRequest.2).mpr hcount, hcount⟩

end Feipu
