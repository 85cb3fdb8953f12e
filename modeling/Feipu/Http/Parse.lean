import Feipu.Http.HttpHandler
import Feipu.Lib.Lines
import Feipu.Lib.Consume

/-!
# The parser on the readable bytes

`textStep` is one round of `parse_http` without the buffer: its state is the parse state with the
request, its input the readable bytes.  `parseHttp_spec` says that `parse_http` runs it: no
assertion of the buffer fails, the status, the request and the bytes left are those of
`Consume.run textStep`, and the scan position `lineIndex` only remembers how far the current line
has been seen to be clean (`Tracks`).

`textStep` is stable under further input (`stable_textStep`), so the cuts of the stream do not
matter: `parse_chunks`.
-/

namespace Feipu
open CStr Lines Consume

theorem cr_ne_lf : (13 : UInt8) ≠ 10 := by decide

/-! ## the text of a line matters up to its NUL -/

theorem parseRequestLine_congr {t u : Bytes} (h : cstr t = cstr u) (req : HttpRequest) :
    parseRequestLine t req = parseRequestLine u req := by
  have hw : ∀ t : Bytes, t.takeWhile inWord = (cstr t).takeWhile inWord := takeWhile_cstr rfl
  have hwl : ∀ t : Bytes, (t.takeWhile inWord).length ≤ (cstr t).length := by
    intro t
    rw [hw]
    exact List.IsPrefix.length_le ( List.takeWhile_prefix _)
  have hm : t.takeWhile inWord = u.takeWhile inWord := by rw [hw, h, ← hw]
  -- the pointers after the method
  have h1 := cstr_drop_congr h (hwl t)
  unfold parseRequestLine
  simp only [hm] at h1 ⊢
  generalize t.drop (u.takeWhile inWord).length = t1 at *
  generalize u.drop (u.takeWhile inWord).length = u1 at *
  by_cases hz : at' u1 0 = 0
  · rw [if_pos hz, if_pos ((at_zero_congr h1).mpr hz)]
  rw [if_neg hz, if_neg (mt (at_zero_congr h1).mp hz)]
  cases req.setMethod (u.takeWhile inWord) with
  | none => rfl
  | some req1 =>
    have hpos : 1 ≤ (cstr t1).length := by
      rw [h1]
      exact List.length_pos_iff.mpr (mt (at_zero_iff u1).mpr hz)
    have h2 := cstr_drop_congr h1 hpos
    generalize t1.drop 1 = t2 at *
    generalize u1.drop 1 = u2 at *
    have hu : t2.takeWhile inWord = u2.takeWhile inWord := by rw [hw, h2, ← hw]
    -- and after the path
    have h3 := cstr_drop_congr h2 (hwl t2)
    simp only [hu] at h3 ⊢
    generalize t2.drop (u2.takeWhile inWord).length = t3 at *
    generalize u2.drop (u2.takeWhile inWord).length = u3 at *
    by_cases hz3 : at' u3 0 = 0
    · rw [if_pos hz3, if_pos ((at_zero_congr h3).mpr hz3)]
    rw [if_neg hz3, if_neg (mt (at_zero_congr h3).mp hz3)]
    have hpos3 : 1 ≤ (cstr t3).length := by
      rw [h3]
      exact List.length_pos_iff.mpr (mt (at_zero_iff u3).mpr hz3)
    rw [cstr_drop_congr h3 hpos3]

theorem parseHeaders_congr {t u : Bytes} (h : cstr t = cstr u) (req : HttpRequest) :
    parseHeaders t req = parseHeaders u req := by
  unfold parseHeaders
  by_cases hz : at' u 0 = 0
  · rw [if_pos hz, if_pos ((at_zero_congr h).mpr hz)]
  rw [if_neg hz, if_neg (mt (at_zero_congr h).mp hz), strncaseeq_congr h]
  have hblank : ∀ {t u : Bytes}, cstr t = cstr u →
      cstr (t.drop (strspn t blanks)) = cstr (u.drop (strspn u blanks)) := by
    intro t u h
    rw [← strspn_congr h]
    exact cstr_drop_congr h (strspn_le t blanks)
  split
  · rename_i hkey
    have h15 : 15 ≤ (cstr t).length :=
      length_of_strncaseeq (by rw [strncaseeq_congr h]; exact hkey) (by decide)
    have h1 := hblank (cstr_drop_congr h h15)
    simp only [h1, atol_congr h1]
  · have h1 := hblank h
    simp only [strcspn_congr h1, strpbrk_congr h1]
    generalize t.drop (strspn t blanks) = t1 at *
    generalize u.drop (strspn u blanks) = u1 at *
    split
    · rfl
    · cases hc : strpbrk u1 (asc ":") with
      | none => rfl
      | some colon =>
        have hlt : colon < (cstr u1).length := strpbrk_lt hc
        have hkey : t1.take colon = u1.take colon := by
          calc t1.take colon = (cstr t1).take colon := take_of_le_cstr (by rw [h1]; omega)
            _ = (cstr u1).take colon := by rw [h1]
            _ = u1.take colon := (take_of_le_cstr (by omega)).symm
        have h2 := hblank (cstr_drop_congr h1 (k := colon + 1) (by rw [h1]; omega))
        simp only [hkey, h2]

/-! ## one line -/

/-- the scan position lies in the current line, which is clean up to there -/
def Scanned (s : Bytes) (i : Nat) : Prop := i ≤ s.length ∧ Clean 13 10 (s.take i)

theorem scanned_append {p : Bytes} (hp : Clean 13 10 p) (t : Bytes) :
    Scanned (p ++ t) p.length := by
  refine ⟨by simp, ?_⟩
  rw [List.take_left]
  exact hp

/-- what `parse_line` reports about the readable bytes `s` -/
def LineSpec (b : Buffer) (s : Bytes) (status : LineStatus) (i : Nat) (b' : Buffer) : Prop :=
  match cut 13 10 s with
  | .more => status = .lineOpen ∧ b' = b ∧ Scanned s i
  | .bad => status = .lineBad ∧ b' = b ∧ Scanned s i
  | .line l r => status = .lineOk ∧ b'.readable = l ++ 0 :: 0 :: r ∧ i = l.length + 2

theorem parseLineLoop_spec (b : Buffer) (t p : Bytes) (hs : b.readable = p ++ t)
    (hp : Clean 13 10 p) :
    ∃ status i b', parseLineLoop b t.length p.length = some (status, i, b') ∧
      LineSpec b b.readable status i b' := by
  have hscan : Scanned b.readable p.length := hs ▸ scanned_append hp t
  have hcut : cut 13 10 b.readable = (cut 13 10 t).push p := by rw [hs, cut_append _ _ hp]
  induction t generalizing p with
  | nil => exact ⟨.lineOpen, p.length, b, rfl, by rw [LineSpec, hcut]; exact ⟨rfl, rfl, hscan⟩⟩
  | cons c t ih =>
    have hlen : b.readable.length = p.length + t.length + 1 := by rw [hs]; simp; omega
    have hbytes : b.getReadableBytes = p.length + t.length + 1 := by rw [← hlen, b.length_readable]
    have hc : at' b.peek p.length = c := by
      rw [Buffer.at_peek (by omega), hs]
      exact at_append_right p _ 0
    by_cases hcr : c = 13
    · subst hcr
      cases t with
      | nil =>
        refine ⟨.lineOpen, p.length, b, ?_, by rw [LineSpec, hcut]; exact ⟨rfl, rfl, hscan⟩⟩
        simp [parseLineLoop, hc, hbytes]
      | cons d t =>
        have hd : at' b.peek (p.length + 1) = d := by
          rw [Buffer.at_peek (by simp at hlen; omega), hs]
          exact at_append_right p _ 1
        by_cases hlf : d = 10
        · subst hlf
          obtain ⟨b', hb', hr⟩ := Buffer.readable_replaceCRCF hs
          refine ⟨.lineOk, p.length + 2, b', ?_, ?_⟩
          · simp [parseLineLoop, hc, hd, hbytes, hb']
          · rw [LineSpec, hcut, cut_cons_cr]
            simpa [afterCr, Cut.push] using hr
        · refine ⟨.lineBad, p.length, b, ?_, ?_⟩
          · simp [parseLineLoop, hc, hd, hlf, hbytes]
          · rw [LineSpec, hcut, cut_cons_cr]
            simpa [afterCr, hlf, Cut.push] using hscan
    · by_cases hlf : c = 10
      · subst hlf
        refine ⟨.lineBad, p.length, b, ?_, ?_⟩
        · -- the byte before is no CR, the bytes scanned so far being clean
          have hprev : ¬ (p.length > 0 ∧ at' b.peek (p.length - 1) = 13) := by
            rintro ⟨hpos, hprev⟩
            rw [Buffer.at_peek (by omega), hs, at_append_left (by omega),
              at_of_lt (by omega)] at hprev
            exact (hp _ (List.getElem_mem (by omega))).1 hprev
          simp only [List.length_cons, parseLineLoop, hc]
          rw [if_neg hcr, if_pos trivial, if_neg hprev]
        · rw [LineSpec, hcut, cut_cons_lf _ _ cr_ne_lf]
          exact ⟨rfl, rfl, hscan⟩
      · have hp' : Clean 13 10 (p ++ [c]) := by
          intro x hx
          rcases List.mem_append.mp hx with hx | hx
          · exact hp x hx
          · obtain rfl := List.mem_singleton.mp hx
            exact ⟨hcr, hlf⟩
        have hs' : b.readable = (p ++ [c]) ++ t := by rw [hs]; simp
        have e : (p ++ [c]).length = p.length + 1 := by simp
        obtain ⟨status, i, b', hrun, hspec⟩ := ih (p ++ [c]) hs' hp'
          (hs' ▸ scanned_append hp' t)
          (by rw [hs', cut_append _ _ hp'])
        refine ⟨status, i, b', ?_, hspec⟩
        rw [e] at hrun
        simp only [List.length_cons, parseLineLoop, hc]
        rw [if_neg hcr, if_neg hlf]
        exact hrun

theorem parseLine_spec {b : Buffer} {i : Nat} (h : Scanned b.readable i) :
    ∃ status i' b', parseLine i b = some (status, i', b') ∧
      LineSpec b b.readable status i' b' := by
  obtain ⟨hi, hclean⟩ := h
  have e : (b.readable.take i).length = i := by simp; omega
  have hrun := parseLineLoop_spec b (b.readable.drop i) (b.readable.take i)
    (List.take_append_drop i _).symm hclean
  rw [e, List.length_drop, b.length_readable] at hrun
  exact hrun

/-! ## one round -/

/-- the parse state and the request -/
abbrev Parse := RequestState × HttpRequest

/-- a line has been cut off, which takes `n` bytes -/
def lineVerdict (cs : RequestState) (text : Bytes) (req : HttpRequest) (n : Nat) :
    Verdict Parse ParseStatus :=
  match cs with
  | .requestline =>
    let (status, req) := parseRequestLine text req
    if status = .parseError ∨ status = .parseEnd then .stop status n (.requestline, req)
    else .take n (.header, req)
  | .header =>
    let (status, req) := parseHeaders text req
    if status = .parseRecv then .take n (.header, req)
    else if status = .parseNext then .take n (.content, req)
    else .stop status n (.header, req)
  | .content => .more

def textStep (p : Parse) (s : Bytes) : Verdict Parse ParseStatus :=
  if p.1 = .content then
    if s.length ≥ p.2.contentLenth then
      .stop .parseEnd s.length
        (.content, { p.2 with contentData := p.2.contentData ++ s.take p.2.contentLenth })
    else .more
  else match cut 13 10 s with
  | .more => .more
  | .bad => .stop .parseError 0 p
  | .line l _ => lineVerdict p.1 (cstr l) p.2 (l.length + 2)

/-- the scan position of a handler fits the bytes at hand -/
def Tracks (h : HttpHandler) (b : Buffer) : Prop :=
  h.checkState ≠ .content → Scanned b.readable h.lineIndex

/-- the handler and its buffer are at `p` with the bytes `rest` left; the router is `ro`, the
response `re` -/
structure Follows (ro : Option Router) (re : HttpResponse) (p : Parse) (rest : Bytes)
    (h : HttpHandler) (b : Buffer) : Prop where
  state : (h.checkState, h.req) = p
  rest : b.readable = rest
  tracks : Tracks h b
  router : h.router = ro
  respon : h.respon = re

/-- the round `r` does what the verdict on the bytes `s` says -/
def Obeys (ro : Option Router) (re : HttpResponse) (p : Parse) (s : Bytes) (r : Round) :
    Verdict Parse ParseStatus → Prop
  | .more => ∃ h b, r = .ret .parseRecv h b ∧ Follows ro re p s h b
  | .take n p' => ∃ h b, r = .again h b ∧ Follows ro re p' (s.drop n) h b
  | .stop status n p' => ∃ h b, r = .ret status h b ∧ Follows ro re p' (s.drop n) h b

theorem tracks_zero (h : HttpHandler) (b : Buffer) (h0 : h.lineIndex = 0) : Tracks h b := by
  intro _
  rw [h0]
  exact ⟨Nat.zero_le _, clean_nil _ _⟩

theorem dispatch_line_spec {h : HttpHandler} {b : Buffer} {l r : Bytes}
    (hcs : h.checkState ≠ .content) (hl : h.lineIndex = l.length + 2)
    (hb : b.readable = l ++ 0 :: 0 :: r) :
    ∃ rd, h.dispatch b = some rd ∧ Obeys h.router h.respon (h.checkState, h.req) (l ++ 13 :: 10 :: r) rd
      (lineVerdict h.checkState (cstr l) h.req (l.length + 2)) := by
  have htext : cstr b.peek = cstr (cstr l) := by
    rw [b.peek_eq, hb, cstr_cstr, List.append_assoc, List.cons_append, cstr_append_zero]
  have hrest : (l ++ 13 :: 10 :: r).drop (l.length + 2) = r := drop_line 13 10 l r
  have hle : h.lineIndex ≤ b.readable.length := by rw [hb, hl]; simp
  obtain ⟨b', hb', hr'⟩ := Buffer.readable_retrieve hle
  have hr : b'.readable = r := by
    rw [hr', hb, hl]
    exact drop_line 0 0 l r
  cases hst : h.checkState with
  | content => exact absurd hst hcs
  | requestline =>
    rcases hp : parseRequestLine (cstr l) h.req with ⟨status, req⟩
    simp only [HttpHandler.dispatch, hst, parseRequestLine_congr htext, hp, hb', lineVerdict,
      Option.bind_eq_bind, Option.bind_some]
    split
    · exact ⟨_, rfl, _, _, rfl, rfl, by rw [hrest, hr], tracks_zero _ _ rfl, rfl, rfl⟩
    · exact ⟨_, rfl, _, _, rfl, rfl, by rw [hrest, hr], tracks_zero _ _ rfl, rfl, rfl⟩
  | header =>
    rcases hp : parseHeaders (cstr l) h.req with ⟨status, req⟩
    simp only [HttpHandler.dispatch, hst, parseHeaders_congr htext, hp, hb', lineVerdict,
      Option.bind_eq_bind, Option.bind_some]
    split
    · exact ⟨_, rfl, _, _, rfl, rfl, by rw [hrest, hr], tracks_zero _ _ rfl, rfl, rfl⟩
    · split
      · exact ⟨_, rfl, _, _, rfl, rfl, by rw [hrest, hr], tracks_zero _ _ rfl, rfl, rfl⟩
      · exact ⟨_, rfl, _, _, rfl, rfl, by rw [hrest, hr], tracks_zero _ _ rfl, rfl, rfl⟩

theorem dispatch_content_spec {h : HttpHandler} (b : Buffer) (hcs : h.checkState = .content) :
    ∃ rd, h.dispatch b = some rd ∧ Obeys h.router h.respon (h.checkState, h.req) b.readable rd
      (textStep (h.checkState, h.req) b.readable) := by
  have htr : ∀ (h' : HttpHandler) (b' : Buffer), h'.checkState = .content → Tracks h' b' :=
    fun h' b' hc hne => absurd hc hne
  have hlen := b.length_readable
  simp only [HttpHandler.dispatch, hcs, textStep, ite_true, hlen]
  by_cases hge : b.getReadableBytes ≥ h.req.contentLenth
  · have hle : b.getReadableBytes ≤ b.readable.length := by rw [hlen]
    obtain ⟨b', hb', hr'⟩ := Buffer.readable_retrieve hle
    have hdata : b.peek.take h.req.contentLenth = b.readable.take h.req.contentLenth := by
      rw [b.peek_eq, List.take_append_of_le_length (by omega)]
    simp only [parseContent, hge, ite_true, hb', hdata]
    exact ⟨_, rfl, _, _, rfl, rfl, hr', htr _ _ rfl, rfl, rfl⟩
  · simp only [parseContent, hge, ite_false]
    exact ⟨_, rfl, _, _, rfl, rfl, rfl, htr _ _ rfl, rfl, rfl⟩

theorem round_spec {h : HttpHandler} {b : Buffer} (ht : Tracks h b) :
    ∃ rd, h.round b = some rd ∧ Obeys h.router h.respon (h.checkState, h.req) b.readable rd
      (textStep (h.checkState, h.req) b.readable) := by
  by_cases hcs : h.checkState = .content
  · obtain ⟨rd, hrd, hob⟩ := dispatch_content_spec (h := { h with lineState := .lineOk }) b hcs
    refine ⟨rd, ?_, hob⟩
    rw [HttpHandler.round, if_pos hcs]
    exact hrd
  · obtain ⟨status, i, b', hline, hspec⟩ := parseLine_spec (ht hcs)
    unfold LineSpec at hspec
    rw [HttpHandler.round, if_neg hcs, hline]
    simp only [textStep, hcs, ite_false]
    cases hcut : cut 13 10 b.readable with
    | more =>
      rw [hcut] at hspec
      obtain ⟨rfl, rfl, hscan⟩ := hspec
      exact ⟨_, rfl, _, _, rfl, rfl, rfl, fun _ => hscan, rfl, rfl⟩
    | bad =>
      rw [hcut] at hspec
      obtain ⟨rfl, rfl, hscan⟩ := hspec
      exact ⟨_, rfl, _, _, rfl, rfl, rfl, fun _ => hscan, rfl, rfl⟩
    | line l r =>
      rw [hcut] at hspec
      obtain ⟨rfl, hb', rfl⟩ := hspec
      obtain ⟨_, hs⟩ := (cut_line_iff cr_ne_lf).mp hcut
      rw [hs]
      exact dispatch_line_spec (h := { h with lineState := .lineOk, lineIndex := l.length + 2 })
        hcs rfl hb'

/-! ## the whole loop -/

/-- a line is taken or ends the parse, and goes either way -/
theorem lineVerdict_cases {cs : RequestState} (hcs : cs ≠ .content) (text : Bytes)
    (req : HttpRequest) (n : Nat) :
    (∃ p, lineVerdict cs text req n = .take n p) ∨
      ∃ status p, (status = .parseError ∨ status = .parseEnd) ∧
        lineVerdict cs text req n = .stop status n p := by
  cases cs with
  | content => exact absurd rfl hcs
  | requestline =>
    unfold lineVerdict
    rcases parseRequestLine text req with ⟨status, req'⟩
    by_cases h : status = .parseError ∨ status = .parseEnd
    · exact .inr ⟨status, _, h, if_pos h⟩
    · exact .inl ⟨_, if_neg h⟩
  | header =>
    unfold lineVerdict
    rcases parseHeaders text req with ⟨status, req'⟩
    cases status with
    | parseRecv => exact .inl ⟨_, rfl⟩
    | parseNext => exact .inl ⟨_, rfl⟩
    | parseError => exact .inr ⟨_, _, .inl rfl, rfl⟩
    | parseEnd => exact .inr ⟨_, _, .inr rfl, rfl⟩

theorem textStep_content {p : Parse} (hcs : p.1 = .content) (s : Bytes) :
    textStep p s = if s.length ≥ p.2.contentLenth then
        .stop .parseEnd s.length
          (.content, { p.2 with contentData := p.2.contentData ++ s.take p.2.contentLenth })
      else .more := if_pos hcs

section
variable {p : Parse} {s : Bytes} (hcs : p.1 ≠ .content)
include hcs

theorem textStep_more (h : cut 13 10 s = .more) : textStep p s = .more := by
  rw [textStep, if_neg hcs, h]

theorem textStep_bad (h : cut 13 10 s = .bad) : textStep p s = .stop .parseError 0 p := by
  rw [textStep, if_neg hcs, h]

theorem textStep_line {l r : Bytes} (h : cut 13 10 s = .line l r) :
    textStep p s = lineVerdict p.1 (cstr l) p.2 (l.length + 2) := by
  rw [textStep, if_neg hcs, h]

end

theorem take_pos_textStep {p p' : Parse} {s : Bytes} {n : Nat} (h : textStep p s = .take n p') :
    0 < n ∧ n ≤ s.length := by
  by_cases hcs : p.1 = .content
  · rw [textStep_content hcs] at h
    split at h <;> cases h
  · cases hcut : cut 13 10 s with
    | more =>
      rw [textStep_more hcs hcut] at h
      cases h
    | bad =>
      rw [textStep_bad hcs hcut] at h
      cases h
    | line l r =>
      rw [textStep_line hcs hcut] at h
      obtain ⟨-, rfl⟩ := (cut_line_iff cr_ne_lf).mp hcut
      rcases lineVerdict_cases hcs (cstr l) p.2 (l.length + 2) with ⟨q, hq⟩ | ⟨status, q, -, hq⟩
      · rw [hq] at h
        cases h
        simp
      · rw [hq] at h
        cases h

theorem stop_textStep {p p' : Parse} {s : Bytes} {n : Nat} {status : ParseStatus}
    (h : textStep p s = .stop status n p') : status = .parseError ∨ status = .parseEnd := by
  by_cases hcs : p.1 = .content
  · rw [textStep_content hcs] at h
    split at h <;> cases h
    exact .inr rfl
  · cases hcut : cut 13 10 s with
    | more =>
      rw [textStep_more hcs hcut] at h
      cases h
    | bad =>
      rw [textStep_bad hcs hcut] at h
      cases h
      exact .inl rfl
    | line l r =>
      rw [textStep_line hcs hcut] at h
      rcases lineVerdict_cases hcs (cstr l) p.2 (l.length + 2) with ⟨q, hq⟩ | ⟨status, q, hst, hq⟩
      · rw [hq] at h
        cases h
      · rw [hq] at h
        cases h
        exact hst

theorem stable_textStep : Stable textStep where
  take_pos := take_pos_textStep
  take_ext := by
    intro p s n p' e h
    by_cases hcs : p.1 = .content
    · rw [textStep_content hcs] at h
      split at h <;> cases h
    · cases hcut : cut 13 10 s with
      | more =>
        rw [textStep_more hcs hcut] at h
        cases h
      | bad =>
        rw [textStep_bad hcs hcut] at h
        cases h
      | line l r =>
        rw [textStep_line hcs hcut] at h
        rw [textStep_line hcs (cut_line_append cr_ne_lf hcut e)]
        exact h
  stop_ext := by
    intro p s o n p' e h
    by_cases hcs : p.1 = .content
    · rw [textStep_content hcs] at h ⊢
      split at h
      · rename_i hlen
        cases h
        rw [if_pos (by simp; omega), List.take_append_of_le_length hlen]
        exact ⟨_, rfl⟩
      · cases h
    · cases hcut : cut 13 10 s with
      | more =>
        rw [textStep_more hcs hcut] at h
        cases h
      | bad =>
        rw [textStep_bad hcs hcut] at h
        rw [textStep_bad hcs (cut_bad_append cr_ne_lf hcut e)]
        exact ⟨_, h⟩
      | line l r =>
        rw [textStep_line hcs hcut] at h
        rw [textStep_line hcs (cut_line_append cr_ne_lf hcut e)]
        exact ⟨_, h⟩

/-- a line that is taken -/
theorem run_taken {p q : Parse} {l : Bytes} (hl : Clean 13 10 l) (hcs : p.1 ≠ .content)
    (hv : lineVerdict p.1 (cstr l) p.2 (l.length + 2) = .take (l.length + 2) q) (r : Bytes) :
    run textStep p (l ++ 13 :: 10 :: r) = run textStep q r := by
  have hstep : textStep p (l ++ 13 :: 10 :: r) = .take (l.length + 2) q := by
    rw [textStep_line hcs (cut_line 13 10 hl r), hv]
  rw [run_take stable_textStep hstep, drop_line]

/-- the status `parse_http` returns for the outcome of a run -/
def statusOf : Option ParseStatus → ParseStatus
  | none => .parseRecv
  | some status => status

theorem rounds_spec (k : Nat) {h : HttpHandler} {b : Buffer} (ht : Tracks h b)
    (hk : b.readable.length < k) :
    ∃ h' b', HttpHandler.rounds k h b =
        some (statusOf (run textStep (h.checkState, h.req) b.readable).1, h', b') ∧
      Follows h.router h.respon (run textStep (h.checkState, h.req) b.readable).2.1
        (run textStep (h.checkState, h.req) b.readable).2.2 h' b' := by
  induction k generalizing h b with
  | zero => omega
  | succ k ih =>
    obtain ⟨rd, hrd, hob⟩ := round_spec ht
    cases hv : textStep (h.checkState, h.req) b.readable with
    | more =>
      rw [hv] at hob
      obtain ⟨h', b', rfl, hf⟩ := hob
      rw [run_more hv, HttpHandler.rounds, hrd]
      exact ⟨h', b', rfl, hf⟩
    | stop status n p =>
      rw [hv] at hob
      obtain ⟨h', b', rfl, hf⟩ := hob
      rw [run_stop hv, HttpHandler.rounds, hrd]
      exact ⟨h', b', rfl, hf⟩
    | take n p =>
      rw [hv] at hob
      obtain ⟨h', b', rfl, hf⟩ := hob
      obtain ⟨hn, hle⟩ := take_pos_textStep hv
      obtain ⟨h'', b'', hrun, hf'⟩ := ih hf.tracks (by rw [hf.rest, List.length_drop]; omega)
      rw [run_take stable_textStep hv, HttpHandler.rounds, hrd]
      rw [hf.state, hf.rest, hf.router, hf.respon] at hf'
      rw [hf.state, hf.rest] at hrun
      exact ⟨h'', b'', hrun, hf'⟩

/-- **`parse_http` runs `textStep`** and fails no assertion. -/
theorem parseHttp_spec {h : HttpHandler} {b : Buffer} (ht : Tracks h b) :
    ∃ h' b', h.parseHttp b =
        some (statusOf (run textStep (h.checkState, h.req) b.readable).1, h', b') ∧
      Follows h.router h.respon (run textStep (h.checkState, h.req) b.readable).2.1
        (run textStep (h.checkState, h.req) b.readable).2.2 h' b' :=
  rounds_spec (b.getReadableBytes + 1) ht (by rw [b.length_readable]; omega)

theorem rounds_fuel (k k' : Nat) {h : HttpHandler} {b : Buffer} (ht : Tracks h b)
    (hk : b.readable.length < k) (hk' : b.readable.length < k') :
    HttpHandler.rounds k h b = HttpHandler.rounds k' h b := by
  induction k generalizing k' h b with
  | zero => omega
  | succ k ih =>
    cases k' with
    | zero => omega
    | succ k' =>
      obtain ⟨rd, hrd, hob⟩ := round_spec ht
      rw [HttpHandler.rounds, HttpHandler.rounds, hrd]
      cases rd with
      | ret status h' b' => rfl
      | again h' b' =>
        cases hv : textStep (h.checkState, h.req) b.readable with
        | more => rw [hv] at hob; obtain ⟨_, _, he, -⟩ := hob; cases he
        | stop status n p => rw [hv] at hob; obtain ⟨_, _, he, -⟩ := hob; cases he
        | take n p =>
          rw [hv] at hob
          obtain ⟨_, _, he, hf⟩ := hob
          cases he
          obtain ⟨hn, hle⟩ := take_pos_textStep hv
          have hlt : b'.readable.length < b.readable.length := by
            rw [hf.rest, List.length_drop]; omega
          exact ih k' hf.tracks (by omega) (by omega)

/-- the bound on the rounds is never met: one more round is always allowed -/
theorem parseHttp_bound {h : HttpHandler} {b : Buffer} (ht : Tracks h b) (k : Nat) :
    HttpHandler.rounds (b.getReadableBytes + 1 + k) h b = h.parseHttp b :=
  rounds_fuel _ _ ht (by rw [b.length_readable]; omega) (by rw [b.length_readable]; omega)

/-- the statuses a run ends with -/
theorem run_status {p p' : Parse} {s rest : Bytes} {status : ParseStatus}
    (h : run textStep p s = (some status, p', rest)) :
    status = .parseError ∨ status = .parseEnd := by
  induction p, s using run_induction stable_textStep with
  | more p s hv => rw [run_more hv] at h; cases h
  | stop p s o n q hv =>
    rw [run_stop hv] at h
    cases h
    exact stop_textStep hv
  | take p s n q hv ih =>
    rw [run_take stable_textStep hv] at h
    exact ih h

/-! ## a stream in chunks -/

/-- each chunk is appended and parsed, up to the first status other than `PARSE_RECV` -/
def feedChunks (h : HttpHandler) (b : Buffer) : List Bytes → Option (ParseStatus × HttpHandler)
  | [] => some (.parseRecv, h)
  | c :: cs =>
    match h.parseHttp (b.append c) with
    | none => none
    | some (status, h, b) =>
      if status = .parseRecv then feedChunks h b cs else some (status, h)

theorem Scanned.append {s : Bytes} {i : Nat} (h : Scanned s i) (e : Bytes) : Scanned (s ++ e) i := by
  obtain ⟨hi, hclean⟩ := h
  refine ⟨by rw [List.length_append]; omega, ?_⟩
  rw [List.take_append_of_le_length hi]
  exact hclean

theorem Tracks.append {h : HttpHandler} {b : Buffer} (ht : Tracks h b) (c : Bytes) :
    Tracks h (b.append c) := by
  intro hcs
  rw [Buffer.readable_append]
  exact (ht hcs).append c

theorem feedChunks_spec (cs : List Bytes) {h : HttpHandler} {b : Buffer} (ht : Tracks h b) :
    ∃ h', feedChunks h b cs =
        some (statusOf (feed textStep (h.checkState, h.req) b.readable cs).1, h') ∧
      (h'.checkState, h'.req) = (feed textStep (h.checkState, h.req) b.readable cs).2 := by
  induction cs generalizing h b with
  | nil => exact ⟨h, rfl, rfl⟩
  | cons c cs ih =>
    obtain ⟨h1, b1, hrun, hf⟩ := parseHttp_spec (ht.append c)
    rw [Buffer.readable_append] at hrun hf
    rcases hr : run textStep (h.checkState, h.req) (b.readable ++ c) with ⟨_ | status, p, rest⟩
    · rw [hr] at hrun hf
      obtain ⟨h2, hfeed, hst⟩ := ih hf.tracks
      rw [hf.state, hf.rest] at hfeed hst
      refine ⟨h2, ?_, ?_⟩
      · simp only [feedChunks, hrun, statusOf, ite_true, feed, hr]
        exact hfeed
      · simp only [feed, hr]
        exact hst
    · have hne : status ≠ .parseRecv := by
        rcases run_status hr with rfl | rfl <;> decide
      rw [hr] at hrun hf
      refine ⟨h1, ?_, ?_⟩
      · simp only [feedChunks, hrun, statusOf, hne, ite_false, feed, hr]
      · simp only [feed, hr]
        exact hf.state

/-- a handler that has read nothing yet makes one run over all the chunks -/
theorem feedChunks_start (cs : List Bytes) {h : HttpHandler} (hcs : h.checkState = .requestline)
    (hline : h.lineIndex = 0) :
    ∃ h', feedChunks h .new cs =
        some (statusOf (run textStep (h.checkState, h.req) cs.flatten).1, h') ∧
      (h'.checkState, h'.req) = (run textStep (h.checkState, h.req) cs.flatten).2.1 := by
  have hmore : textStep (h.checkState, h.req) [] = .more := by
    rw [hcs]
    rfl
  obtain ⟨h', hrun, hst⟩ := feedChunks_spec cs (tracks_zero h .new hline)
  rw [Buffer.readable_new, feed_start stable_textStep cs hmore] at hrun hst
  exact ⟨h', hrun, hst⟩

/-- **The cuts of the stream do not matter.** -/
theorem parse_chunks (m : HttpMethod) (c : HttpStatus) (cs cs' : List Bytes)
    (hcs : cs.flatten = cs'.flatten) :
    ∃ status h h', feedChunks (.fresh m c) .new cs = some (status, h) ∧
      feedChunks (.fresh m c) .new cs' = some (status, h') ∧ h.req = h'.req := by
  obtain ⟨h, hrun, hst⟩ := feedChunks_start (h := .fresh m c) cs rfl rfl
  obtain ⟨h', hrun', hst'⟩ := feedChunks_start (h := .fresh m c) cs' rfl rfl
  rw [← hcs] at hrun' hst'
  exact ⟨_, h, h', hrun, hrun', congrArg Prod.snd (hst.trans hst'.symm)⟩

end Feipu
