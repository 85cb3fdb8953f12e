import Feipu.Http.Fields

/-!
# The length of the body and the headers

A header line may give `Content-length` in two ways: by the special case of `parse_headers`, which
looks at the first byte of the line on, and by the general one, which skips blanks first.

* `length_agrees`         where every line that gives a length starts with the name and denotes a
                          length, the headers give in every state the length `parse_content` goes by;
* `lengths_checked_iff`   a line of the name whose number is not one of digits is never refused.
-/

namespace Feipu
open CStr Lines Consume Trace

/-! ## the length of the body -/

/-- the number a value denotes: after white space and a sign, the digits it starts with -/
def denotes (v : Bytes) : Option Int :=
  let (neg, t) := sign (v.dropWhile isspace)
  let ds := t.takeWhile isdigit
  if ds = [] then none else some (if neg then -(digitsVal ds : Int) else digitsVal ds)

theorem toSizeT_denotes {v : Bytes} (h0 : 0 ∉ v) {n : Nat} (h : denotes v = some (n : Int))
    (hn : n < 2 ^ 63) : toSizeT (atol v) = n := by
  unfold denotes at h
  dsimp only at h
  split at h
  · cases h
  · have hval := Option.some.inj h
    rw [atol, cstr_of_notMem h0]
    dsimp only
    rw [hval, toSizeT]
    omega

/-- the entries whose name is a spelling of `Content-length` are at most one, it denotes the length
of the body, and without one there is no body -/
def Agrees (req : HttpRequest) : Prop :=
  (∀ e ∈ req.headers.entries, ∀ e' ∈ req.headers.entries,
    IsContentLength e.1 → IsContentLength e'.1 → e = e') ∧
  (∀ e ∈ req.headers.entries, IsContentLength e.1 → denotes e.2 = some (req.contentLenth : Int)) ∧
  ((∀ e ∈ req.headers.entries, ¬ IsContentLength e.1) → req.contentLenth = 0)

/-- a line that gives a length starts with the name, and denotes a length a `long` can hold -/
def Framed (l : Bytes) : Prop :=
  ∀ k v, Says l k v → IsContentLength k →
    ContentLengthLine l ∧ ∃ n : Nat, denotes v = some (n : Int) ∧ n < 2 ^ 63

/-- the round, where it reads a header line, reads one that is framed -/
def FramedAt (x : HttpHandler × Buffer) (a : ParseAct) : Prop :=
  a = .round → x.1.checkState = .header →
    ∀ l r, cut 13 10 x.2.readable = .line l r → Framed (cstr l)

/-- the one entry that gives the length goes by the name `Content-length` -/
structure Sized (req : HttpRequest) : Prop where
  name : ∀ e ∈ req.headers.entries, IsContentLength e.1 → e.1 = asc "Content-length"
  value : ∀ e ∈ req.headers.entries, IsContentLength e.1 →
    denotes e.2 = some (req.contentLenth : Int)
  absent : (∀ e ∈ req.headers.entries, ¬ IsContentLength e.1) → req.contentLenth = 0

theorem Sized.agrees {req : HttpRequest} (h : Sized req) : Agrees req := by
  refine ⟨?_, h.value, h.absent⟩
  intro e he e' he' hk hk'
  exact SMap.entry_unique he he' ((h.name e he hk).trans (h.name e' he' hk').symm)

theorem isContentLength_self : IsContentLength (asc "Content-length") := rfl

theorem sized_headers {text : Bytes} {req : HttpRequest} (ht : Plain text) (hf : Framed text)
    (h : Sized req) : Sized (parseHeaders text req).2 := by
  rcases parseHeaders_stores ht.2.2 req with heq | ⟨k, v, hs, heq⟩
  · rw [heq]
    exact h
  rw [heq]
  have hv := (hs.plain ht).2.1.2.2
  by_cases hk : IsContentLength k
  · obtain ⟨hcl, n, hden, hn⟩ := hf k v hs hk
    have hkv : k = asc "Content-length" ∧
        v = (text.drop 15).dropWhile (blanks.contains ·) := by
      cases hs with
      | contentLength => exact ⟨rfl, rfl⟩
      | field hno => exact absurd hcl hno
    have hlen : lengthAfter req.contentLenth text = n := by
      rw [lengthAfter, if_pos hcl, ← hkv.2]
      exact toSizeT_denotes hv hden hn
    refine ⟨?_, ?_, ?_⟩
    · intro e he hke
      rcases SMap.mem_set_iff.mp he with rfl | ⟨he, -⟩
      · exact hkv.1
      · exact h.name e he hke
    · intro e he hke
      show denotes e.2 = some (lengthAfter req.contentLenth text : Int)
      rw [hlen]
      rcases SMap.mem_set_iff.mp he with rfl | ⟨he, hne⟩
      · exact hden
      · exact absurd ((h.name e he hke).trans hkv.1.symm) hne
    · intro hnone
      exact absurd hk (hnone (k, v) (SMap.mem_set_iff.mpr (.inl rfl)))
  · have hcl : ¬ ContentLengthLine text := by
      intro hcl
      cases hs with
      | contentLength => exact hk isContentLength_self
      | field hno => exact hno hcl
    have hlen : lengthAfter req.contentLenth text = req.contentLenth := by
      rw [lengthAfter, if_neg hcl]
    rw [hlen]
    refine ⟨?_, ?_, ?_⟩
    · intro e he hke
      rcases SMap.mem_set_iff.mp he with rfl | ⟨he, -⟩
      · exact absurd hke hk
      · exact h.name e he hke
    · intro e he hke
      rcases SMap.mem_set_iff.mp he with rfl | ⟨he, -⟩
      · exact absurd hke hk
      · exact h.value e he hke
    · intro hnone
      apply h.absent
      intro e he hke
      refine hnone e (SMap.mem_set_iff.mpr (.inr ⟨he, ?_⟩)) hke
      intro heq
      exact hk (heq ▸ hke)

theorem sized_roundOn {p : Parse} {s : Bytes} (h : Sized p.2)
    (hf : p.1 = .header → ∀ l r, cut 13 10 s = .line l r → Framed (cstr l)) :
    Sized (roundOn p s).2 := by
  rcases roundOn_cases p s with heq | ⟨d, heq⟩ | ⟨l, r, hcut, ⟨-, heq⟩ | ⟨hcs, heq⟩⟩
  · rw [heq]
    exact h
  · rw [heq]
    exact ⟨h.name, h.value, h.absent⟩
  · obtain ⟨m, path, version, hstores, -, -⟩ := parseRequestLine_stores (cstr l) p.2
    rw [heq, hstores]
    exact ⟨h.name, h.value, h.absent⟩
  · rw [heq]
    exact sized_headers (plain_line hcut) (hf hcs l r hcut) h

/-- **The length of the body is the one the headers give**, where every line that gives one is
framed. -/
theorem length_agrees (m : HttpMethod) (c : HttpStatus)
    {tr : List (Tr (HttpHandler × Buffer) ParseAct)} (h : Path ParseRun (.fresh m c, .new) tr)
    (hG : ∀ e ∈ tr, FramedAt e.pre e.act) : ∀ e ∈ tr, Agrees e.post.1.req := by
  have hstep : ∀ (x : HttpHandler × Buffer) (a : ParseAct) (y : HttpHandler × Buffer),
      Tracks x.1 x.2 ∧ Sized x.1.req → ParseRun x a y → FramedAt x a →
      (Tracks y.1 y.2 ∧ Sized y.1.req) ∧ Agrees y.1.req := by
    intro x a y ⟨ht, hs⟩ hst hf
    cases hst with
    | chunk h b c => exact ⟨⟨ht.append c, hs⟩, hs.agrees⟩
    | @round h b r hrd =>
      obtain ⟨ht', -, hreq⟩ := round_roundOn ht hrd
      have hs' := sized_roundOn (p := (h.checkState, h.req)) hs (hf rfl)
      rw [← hreq] at hs'
      exact ⟨⟨ht', hs'⟩, hs'.agrees⟩
  have h0 : Tracks (.fresh m c) .new ∧ Sized (HttpHandler.fresh m c).req :=
    ⟨tracks_zero _ _ rfl, fun _ he => absurd he List.not_mem_nil,
      fun _ he => absurd he List.not_mem_nil, fun _ => rfl⟩
  intro e he
  exact (h.guarded (G := FramedAt)
    (P := fun e => Agrees e.post.1.req) hstep h0 hG e he).2.2

/-- a request line, then the header line `l`, the only one that is read -/
theorem path_header {l k v : Bytes} (hl : Plain l) (hs : Says l k v) :
    ∃ (tr : List (Tr (HttpHandler × Buffer) ParseAct)) (x y : HttpHandler × Buffer),
      Path ParseRun (.fresh .get 0, .new) tr ∧ ⟨x, .round, y⟩ ∈ tr ∧ Tracks x.1 x.2 ∧
      x.1.checkState = .header ∧ x.2.readable = l ++ [13, 10] ∧
      y.1.req.headers = SMap.empty.set k v ∧ y.1.req.contentLenth = lengthAfter 0 l ∧
      ∀ e ∈ tr, e.act = .round → e.pre.1.checkState = .header →
        ∀ l' r, cut 13 10 e.pre.2.readable = .line l' r → l' = l := by
  have hline : cut 13 10 (asc "GET / HTTP/1.1" ++ 13 :: 10 :: (l ++ [13, 10])) =
      .line (asc "GET / HTTP/1.1") (l ++ [13, 10]) := by
    apply cut_line
    unfold Clean
    decide +kernel
  have hreq := parseRequestLine_eq (m := asc "GET") (u := asc "/") (by decide) (by decide)
    (by decide) (by decide) (by decide) (.new .get)
  have hfirst : textStep (.requestline, .new .get)
      (asc "GET / HTTP/1.1" ++ 13 :: 10 :: (l ++ [13, 10])) =
      .take 16 (.header, { HttpRequest.new .get with
        method := httpMethodEnum (asc "GET"), path := asc "/", version := asc "HTTP/1.1" }) := by
    rw [textStep_line (fun h => by cases h) hline, cstr_of_notMem (by decide)]
    have hreq : parseRequestLine (asc "GET / HTTP/1.1") (.new .get) = _ := hreq
    simp only [lineVerdict, hreq]
    rfl
  have hchunk := ParseRun.chunk (.fresh .get 0) .new
    (asc "GET / HTTP/1.1" ++ 13 :: 10 :: (l ++ [13, 10]))
  have ht := (tracks_zero (.fresh .get 0) .new rfl).append
    (asc "GET / HTTP/1.1" ++ 13 :: 10 :: (l ++ [13, 10]))
  obtain ⟨h1, b1, hr1, ht1, hq1, hb1⟩ := round_take ht (by
    rw [Buffer.readable_append, Buffer.readable_new]
    exact hfirst)
  rw [Buffer.readable_append, Buffer.readable_new] at hb1
  have hb1 : b1.readable = l ++ [13, 10] := hb1
  have hsecond : textStep (h1.checkState, h1.req) b1.readable = .take (l.length + 2)
      (.header, { h1.req with
        headers := h1.req.headers.set k v
        contentLenth := lengthAfter h1.req.contentLenth l }) := by
    rw [show h1.checkState = .header from congrArg Prod.fst hq1, hb1,
      textStep_line (fun h => by cases h) (cut_line 13 10 hl.clean []), cstr_of_notMem hl.2.2]
    simp only [lineVerdict, parseHeaders_eq hl.2.2 hs, ite_true]
  obtain ⟨h2, b2, hr2, -, hq2, -⟩ := round_take ht1 hsecond
  refine ⟨_, (h1, b1), (h2, b2), .cons hchunk (.cons hr1 (.cons hr2 (.nil _))),
    List.getLast_mem (List.cons_ne_nil _ _), ht1, congrArg Prod.fst hq1, hb1, ?_, ?_, ?_⟩
  · show h2.req.headers = _
    rw [show h2.req = _ from congrArg Prod.snd hq2, show h1.req = _ from congrArg Prod.snd hq1]
    rfl
  · show h2.req.contentLenth = _
    rw [show h2.req = _ from congrArg Prod.snd hq2, show h1.req = _ from congrArg Prod.snd hq1]
    rfl
  · intro e he
    simp only [List.mem_cons, List.not_mem_nil, or_false] at he
    rcases he with rfl | rfl | rfl
    · exact fun h => (by cases h)
    · exact fun _ h => (by cases h)
    · intro _ _ l' r hcut
      have hcut : cut 13 10 b1.readable = .line l' r := hcut
      rw [hb1, cut_line 13 10 hl.clean []] at hcut
      exact (Cut.line.inj hcut).1.symm

theorem plain_lengthLine : Plain (asc "Content-Length: 5") ∧ Plain (asc " Content-Length: 5") := by
  decide

theorem length_agrees_five :
    ∃ h : HttpHandler, h.req.headers = SMap.empty.set (asc "Content-length") (asc "5") ∧
      Agrees h.req := by
  have hcl : ContentLengthLine (asc "Content-Length: 5") := by decide
  obtain ⟨tr, x, y, hpath, hmem, -, -, -, hheaders, -, honly⟩ :=
    path_header plain_lengthLine.1 (.contentLength hcl)
  refine ⟨y.1, hheaders, length_agrees .get 0 hpath ?_ _ hmem⟩
  intro e he hact hcs l r hcut
  rw [honly e he hact hcs l r hcut, cstr_of_notMem plain_lengthLine.1.2.2]
  intro k v hs _
  cases hs with
  | contentLength => exact ⟨hcl, 5, by decide, by omega⟩
  | field hno => exact absurd hcl hno

/-- a length behind a blank is recorded and not gone by -/
theorem length_disagrees :
    ¬ ∀ tr, Path ParseRun (.fresh .get 0, .new) tr → ∀ e ∈ tr, Agrees e.post.1.req := by
  intro hall
  have hs : Says (asc " Content-Length: 5") (asc "Content-Length") (asc "5") := by
    refine .field (w := [32]) (b := [32]) (by decide) (by decide) blank_singleton blank_singleton
      (by decide) ?_ (by decide) ?_
    · intro c hc
      obtain rfl := Option.some.inj hc
      decide
    · intro c hc
      obtain rfl := Option.some.inj hc
      decide
  obtain ⟨tr, x, y, hpath, hmem, -, -, -, hheaders, hlen, -⟩ := path_header plain_lengthLine.2 hs
  obtain ⟨-, hvalue, -⟩ := hall _ hpath _ hmem
  have hvalue : ∀ e ∈ y.1.req.headers.entries, IsContentLength e.1 →
      denotes e.2 = some (y.1.req.contentLenth : Int) := hvalue
  have hnum := hvalue (asc "Content-Length", asc "5")
    (by rw [hheaders]; exact SMap.mem_set_iff.mpr (.inl rfl)) (by decide)
  rw [hlen] at hnum
  exact absurd hnum (by decide)

/-! ## what a length may be -/

/-- the number after the name and the blanks of a line -/
def lengthValue (l : Bytes) : Nat := digitsVal ((l.drop 15).dropWhile (blanks.contains ·))

/-- a round that reads a line of the name `Content-length` takes its number, which is one of digits
below `2 ^ 63`, or refuses it -/
def ChecksLength (e : Tr (HttpHandler × Buffer) ParseAct) : Prop :=
  e.act = .round → e.pre.1.checkState = .header →
    ∀ l r, cut 13 10 e.pre.2.readable = .line l r → ContentLengthLine l →
      (LengthLine l ∧ e.post.1.req.contentLenth = lengthValue l) ∨
        ∃ h b, e.pre.1.round e.pre.2 = some (.ret .parseError h b)

/-- the round, where it reads a line of the name `Content-length`, reads a number -/
def ReadsLength (x : HttpHandler × Buffer) (a : ParseAct) : Prop :=
  a = .round → x.1.checkState = .header →
    ∀ l r, cut 13 10 x.2.readable = .line l r → ContentLengthLine l → LengthLine l

/-- the name of a line has no NUL -/
theorem zero_notMem_key {k : Bytes} (hk : k.map tolower = contentLengthKey.map tolower) : 0 ∉ k := by
  intro hmem
  have hmap : 0 ∈ k.map tolower := List.mem_map.mpr ⟨0, hmem, rfl⟩
  rw [hk] at hmap
  exact absurd hmap (by decide)

theorem contentLengthLine_cstr {l : Bytes} (h : ContentLengthLine l) : ContentLengthLine (cstr l) := by
  obtain ⟨k, v, rfl, hk⟩ := h
  have h0 := zero_notMem_key hk
  refine ⟨k, cstr v, ?_, hk⟩
  exact List.takeWhile_append_of_pos fun c hc => bne_iff_ne.mpr fun heq => h0 (heq ▸ hc)

/-- a line with a number has no NUL -/
theorem LengthLine.cstr_eq {l : Bytes} (hcl : ContentLengthLine l) (h : LengthLine l) :
    cstr l = l := by
  obtain ⟨k, w, ds, rfl, hk, hw, -, hds, -⟩ := h
  rw [contentLengthLine_iff, ← hk, List.take_left] at hcl
  refine cstr_of_notMem fun hmem => ?_
  rcases List.mem_append.mp hmem with hmem | hmem
  · exact zero_notMem_key hcl hmem
  · rcases List.mem_append.mp hmem with hmem | hmem
    · exact absurd (hw 0 hmem) (by decide)
    · exact absurd (hds 0 hmem) (by decide)

/-- no line of the name is refused -/
theorem round_contentLength {h : HttpHandler} {b : Buffer} {l r : Bytes} {rd : Round}
    (ht : Tracks h b) (hcs : h.checkState = .header) (hcut : cut 13 10 b.readable = .line l r)
    (hcl : ContentLengthLine l) (hrd : h.round b = some rd) :
    (∃ h' b', rd = .again h' b') ∧
      rd.state.1.req.contentLenth = lengthAfter h.req.contentLenth (cstr l) := by
  have hcl' := contentLengthLine_cstr hcl
  have hparse := parseHeaders_eq (zero_notMem_cstr l) (.contentLength hcl') h.req
  have hstep : ∃ q, textStep (h.checkState, h.req) b.readable = .take (l.length + 2) q ∧
      q.2.contentLenth = lengthAfter h.req.contentLenth (cstr l) := by
    rw [hcs, textStep_line (fun h => by cases h) hcut]
    simp only [lineVerdict, hparse, ite_true]
    exact ⟨_, rfl, rfl⟩
  obtain ⟨q, hq, hlen⟩ := hstep
  obtain ⟨rd', hrd', ho⟩ := round_spec ht
  obtain rfl := Option.some.inj (hrd.symm.trans hrd')
  rw [hq] at ho
  obtain ⟨h', b', rfl, hf⟩ := ho
  refine ⟨⟨h', b', rfl⟩, ?_⟩
  rw [← hlen, ← hf.state]
  rfl

/-- **Lengths are checked** in exactly the runs in which every line of the name carries a number. -/
theorem lengths_checked_iff (m : HttpMethod) (c : HttpStatus)
    {tr : List (Tr (HttpHandler × Buffer) ParseAct)} (h : Path ParseRun (.fresh m c, .new) tr) :
    (∀ e ∈ tr, ChecksLength e) ↔ ∀ e ∈ tr, ReadsLength e.pre e.act := by
  have hstep : ∀ (x : HttpHandler × Buffer) (a : ParseAct) (y : HttpHandler × Buffer),
      Tracks x.1 x.2 → ParseRun x a y →
      (ChecksLength ⟨x, a, y⟩ ↔ ReadsLength x a) ∧ (ReadsLength x a → Tracks y.1 y.2) := by
    intro x a y ht hst
    cases hst with
    | chunk h b c =>
      exact ⟨iff_of_true (fun h => by cases h) (fun h => by cases h), fun _ => ht.append c⟩
    | @round h b rd hrd =>
      refine ⟨?_, fun _ => (round_roundOn ht hrd).1⟩
      constructor
      · intro hchecks _ hcs l r hcut hcl
        obtain ⟨⟨h', b', hagain⟩, -⟩ := round_contentLength ht hcs hcut hcl hrd
        rcases hchecks rfl hcs l r hcut hcl with ⟨hline, -⟩ | ⟨h'', b'', herr⟩
        · exact hline
        · rw [hagain] at hrd
          cases hrd.symm.trans herr
      · intro hreads _ hcs l r hcut hcl
        have hline := hreads rfl hcs l r hcut hcl
        obtain ⟨-, hlen⟩ := round_contentLength ht hcs hcut hcl hrd
        refine .inl ⟨hline, ?_⟩
        rw [hline.cstr_eq hcl, lengthAfter_lengthLine hcl hline] at hlen
        exact hlen
  exact h.all_iff hstep (tracks_zero _ _ rfl)

/-- a number in a line of the name -/
theorem lengths_checked_five : ∃ tr : List (Tr (HttpHandler × Buffer) ParseAct),
    Path ParseRun (.fresh .get 0, .new) tr ∧ (∀ e ∈ tr, ChecksLength e) ∧
      ∃ e ∈ tr, e.post.1.req.contentLenth = 5 := by
  have hcl : ContentLengthLine (asc "Content-Length: 5") := by decide
  obtain ⟨tr, x, y, hpath, hmem, -, -, -, -, hlen, honly⟩ :=
    path_header plain_lengthLine.1 (.contentLength hcl)
  refine ⟨tr, hpath, (lengths_checked_iff .get 0 hpath).mpr ?_, _, hmem, hlen.trans (by decide)⟩
  intro e he hact hcs l r hcut _
  rw [honly e he hact hcs l r hcut]
  exact ⟨asc "Content-Length:", asc " ", asc "5", rfl, rfl, blank_singleton, by decide,
    List.forall_mem_singleton.mpr (by decide), by decide⟩

/-- "abc" gives the length 0, and no error -/
theorem lengths_unchecked :
    ¬ ∀ tr, Path ParseRun (.fresh .get 0, .new) tr → ∀ e ∈ tr, ChecksLength e := by
  intro hall
  have hcl : ContentLengthLine (asc "Content-Length: abc") := by decide
  have hplain : Plain (asc "Content-Length: abc") := by decide
  obtain ⟨tr, x, y, hpath, hmem, ht, hcs, hb, -, -, -⟩ := path_header hplain (.contentLength hcl)
  have hcut : cut 13 10 x.2.readable = .line (asc "Content-Length: abc") [] := by
    rw [hb]
    exact cut_line 13 10 hplain.clean []
  rcases hall _ hpath _ hmem rfl hcs _ _ hcut hcl with ⟨⟨k, w, ds, heq, hk, hw, -, hds, -⟩, -⟩ | herr
  · -- the 'a' is neither a blank nor a digit
    have hrest : asc " abc" = w ++ ds := by
      have hdrop := congrArg (List.drop 15) heq
      rw [← hk, List.drop_left, hk] at hdrop
      exact hdrop
    have ha : 97 ∈ w ++ ds := by
      rw [← hrest]
      decide
    rcases List.mem_append.mp ha with ha | ha
    · exact absurd (hw 97 ha) (by decide)
    · exact absurd (hds 97 ha) (by decide)
  · obtain ⟨h', b', herr⟩ := herr
    obtain ⟨⟨h'', b'', hagain⟩, -⟩ := round_contentLength ht hcs hcut hcl herr
    cases hagain

end Feipu
