import Feipu.Http.RequestLines

/-!
# The grammar of requests

The language of the parser, stated without the parser.  `Rejects` and `Accepts` are the streams that
break the grammar and those that hold a whole request, read from any parse state and with arbitrary
bytes (a line counts up to its first NUL).

* `run_decides`     the parser decides both languages;
* `parse_grammar`   for a fresh handler and lines without NUL they are `BreaksGrammar` and
                    `HoldsRequest`, which name all lines of the stream at once.
-/

namespace Feipu
open CStr Lines Consume

/-! ## streams -/

/-- the stream breaks the grammar, read from the given parse state -/
inductive Rejects : RequestState → Bytes → Prop where
  | broken {cs s} (hcs : cs ≠ .content) (hs : Broken 13 10 s) : Rejects cs s
  | badRequest {l r} (hl : Clean 13 10 l) (hbad : ¬ RequestLine (cstr l)) :
      Rejects .requestline (l ++ 13 :: 10 :: r)
  | badField {l r} (hl : Clean 13 10 l) (hne : cstr l ≠ []) (hbad : ¬ HeaderLine (cstr l)) :
      Rejects .header (l ++ 13 :: 10 :: r)
  | request {l r} (hl : Clean 13 10 l) (hgood : RequestLine (cstr l)) (hr : Rejects .header r) :
      Rejects .requestline (l ++ 13 :: 10 :: r)
  | field {l r} (hl : Clean 13 10 l) (hne : cstr l ≠ []) (hgood : HeaderLine (cstr l))
      (hr : Rejects .header r) : Rejects .header (l ++ 13 :: 10 :: r)

/-- the stream holds the rest of a request, `n` being the body length known so far -/
inductive Accepts : RequestState → Nat → Bytes → Prop where
  | body {n s} (hn : n ≤ s.length) : Accepts .content n s
  | blank {n l r} (hl : Clean 13 10 l) (hblank : cstr l = []) (hn : n ≤ r.length) :
      Accepts .header n (l ++ 13 :: 10 :: r)
  | field {n l r} (hl : Clean 13 10 l) (hne : cstr l ≠ []) (hgood : HeaderLine (cstr l))
      (hr : Accepts .header (lengthAfter n (cstr l)) r) : Accepts .header n (l ++ 13 :: 10 :: r)
  | request {n l r} (hl : Clean 13 10 l) (hgood : RequestLine (cstr l)) (hr : Accepts .header n r) :
      Accepts .requestline n (l ++ 13 :: 10 :: r)

theorem cut_crlf {l : Bytes} (hl : Clean 13 10 l) (r : Bytes) :
    cut 13 10 (l ++ 13 :: 10 :: r) = .line l r := cut_line 13 10 hl r

theorem not_rejects_content (s : Bytes) : ¬ Rejects .content s := by
  intro h
  cases h with
  | broken hcs _ => exact hcs rfl

theorem rejects_request_iff (s : Bytes) :
    Rejects .requestline s ↔ match cut 13 10 s with
      | .more => False
      | .bad => True
      | .line l r => RequestLine (cstr l) → Rejects .header r := by
  constructor
  · intro h
    cases h with
    | broken _ hs => rw [(cut_bad_iff cr_ne_lf).mpr hs]; trivial
    | badRequest hl hbad => rw [cut_crlf hl]; exact fun hgood => absurd hgood hbad
    | request hl _ hr => rw [cut_crlf hl]; exact fun _ => hr
  · intro h
    cases hcut : cut 13 10 s with
    | more => rw [hcut] at h; exact absurd h id
    | bad => exact .broken (by decide) ((cut_bad_iff cr_ne_lf).mp hcut)
    | line l r =>
      rw [hcut] at h
      obtain ⟨hl, rfl⟩ := (cut_line_iff cr_ne_lf).mp hcut
      by_cases hgood : RequestLine (cstr l)
      · exact .request hl hgood (h hgood)
      · exact .badRequest hl hgood

theorem rejects_header_iff (s : Bytes) :
    Rejects .header s ↔ match cut 13 10 s with
      | .more => False
      | .bad => True
      | .line l r => cstr l ≠ [] ∧ (HeaderLine (cstr l) → Rejects .header r) := by
  constructor
  · intro h
    cases h with
    | broken _ hs => rw [(cut_bad_iff cr_ne_lf).mpr hs]; trivial
    | badField hl hne hbad => rw [cut_crlf hl]; exact ⟨hne, fun hgood => absurd hgood hbad⟩
    | field hl hne _ hr => rw [cut_crlf hl]; exact ⟨hne, fun _ => hr⟩
  · intro h
    cases hcut : cut 13 10 s with
    | more => rw [hcut] at h; exact absurd h id
    | bad => exact .broken (by decide) ((cut_bad_iff cr_ne_lf).mp hcut)
    | line l r =>
      rw [hcut] at h
      obtain ⟨hl, rfl⟩ := (cut_line_iff cr_ne_lf).mp hcut
      by_cases hgood : HeaderLine (cstr l)
      · exact .field hl h.1 hgood (h.2 hgood)
      · exact .badField hl h.1 hgood

theorem accepts_content_iff (n : Nat) (s : Bytes) : Accepts .content n s ↔ n ≤ s.length := by
  constructor
  · intro h
    cases h with
    | body hn => exact hn
  · exact .body

theorem accepts_request_iff (n : Nat) (s : Bytes) :
    Accepts .requestline n s ↔ match cut 13 10 s with
      | .line l r => RequestLine (cstr l) ∧ Accepts .header n r
      | _ => False := by
  constructor
  · intro h
    cases h with
    | request hl hgood hr => rw [cut_crlf hl]; exact ⟨hgood, hr⟩
  · intro h
    cases hcut : cut 13 10 s with
    | more => rw [hcut] at h; exact absurd h id
    | bad => rw [hcut] at h; exact absurd h id
    | line l r =>
      rw [hcut] at h
      obtain ⟨hl, rfl⟩ := (cut_line_iff cr_ne_lf).mp hcut
      exact .request hl h.1 h.2

theorem accepts_header_iff (n : Nat) (s : Bytes) :
    Accepts .header n s ↔ match cut 13 10 s with
      | .line l r => if cstr l = [] then n ≤ r.length
          else HeaderLine (cstr l) ∧ Accepts .header (lengthAfter n (cstr l)) r
      | _ => False := by
  constructor
  · intro h
    cases h with
    | blank hl hblank hn => rw [cut_crlf hl]; exact (if_pos hblank).mpr hn
    | field hl hne hgood hr => rw [cut_crlf hl]; exact (if_neg hne).mpr ⟨hgood, hr⟩
  · intro h
    cases hcut : cut 13 10 s with
    | more => rw [hcut] at h; exact absurd h id
    | bad => rw [hcut] at h; exact absurd h id
    | line l r =>
      rw [hcut] at h
      obtain ⟨hl, rfl⟩ := (cut_line_iff cr_ne_lf).mp hcut
      by_cases hne : cstr l = []
      · exact .blank hl hne ((if_pos hne).mp h)
      · obtain ⟨hgood, hr⟩ := (if_neg hne).mp h
        exact .field hl hne hgood hr

/-! ## the parser decides them -/

/-- the verdict on a request line -/
theorem request_verdict {l : Bytes} (hgood : RequestLine (cstr l)) (req : HttpRequest) (n : Nat) :
    ∃ req' : HttpRequest, req'.contentLenth = req.contentLenth ∧
      lineVerdict .requestline (cstr l) req n = .take n (.header, req') := by
  obtain ⟨req', hp, hlen⟩ := parseRequestLine_good (zero_notMem_cstr l) hgood req
  refine ⟨req', hlen, ?_⟩
  simp only [lineVerdict, hp]
  rfl

/-- the verdict on a header line -/
theorem header_verdict {l : Bytes} (hne : cstr l ≠ []) (hgood : HeaderLine (cstr l))
    (req : HttpRequest) (n : Nat) :
    ∃ req' : HttpRequest, req'.contentLenth = lengthAfter req.contentLenth (cstr l) ∧
      lineVerdict .header (cstr l) req n = .take n (.header, req') := by
  obtain ⟨req', hp, hlen⟩ := (parseHeaders_line (zero_notMem_cstr l) hne req).1 hgood
  refine ⟨req', hlen, ?_⟩
  simp only [lineVerdict, hp, ite_true]

/-- the verdict on the blank line -/
theorem blank_verdict {l : Bytes} (hblank : cstr l = []) (req : HttpRequest) (n : Nat) :
    lineVerdict .header (cstr l) req n =
      if req.contentLenth = 0 then .stop .parseEnd n (.header, req) else .take n (.content, req) := by
  by_cases hz : req.contentLenth = 0
  · simp [lineVerdict, hblank, parseHeaders_nil, hz]
  · simp [lineVerdict, hblank, parseHeaders_nil, hz]

/-- what one step of the parser has to do with the two languages -/
def StepDecides (p : Parse) (s : Bytes) : Verdict Parse ParseStatus → Prop
  | .more => ¬ Rejects p.1 s ∧ ¬ Accepts p.1 p.2.contentLenth s
  | .stop status _ _ => (status = .parseError ↔ Rejects p.1 s) ∧
      (status = .parseEnd ↔ Accepts p.1 p.2.contentLenth s)
  | .take n p' => (Rejects p'.1 (s.drop n) ↔ Rejects p.1 s) ∧
      (Accepts p'.1 p'.2.contentLenth (s.drop n) ↔ Accepts p.1 p.2.contentLenth s)

/-- a broken line -/
theorem stepDecides_bad {p : Parse} {s : Bytes} (hcs : p.1 ≠ .content)
    (hcut : cut 13 10 s = .bad) (hrej : Rejects p.1 s) (hacc : ¬ Accepts p.1 p.2.contentLenth s) :
    StepDecides p s (textStep p s) := by
  rw [textStep_bad hcs hcut]
  exact ⟨iff_of_true rfl hrej, iff_of_false ParseStatus.noConfusion hacc⟩

theorem stepDecides_request (req : HttpRequest) (s : Bytes) :
    StepDecides (.requestline, req) s (textStep (.requestline, req) s) := by
  have hrej := rejects_request_iff s
  have hacc := accepts_request_iff req.contentLenth s
  have hcs : ((RequestState.requestline, req) : Parse).1 ≠ .content := fun h => by cases h
  cases hcut : cut 13 10 s with
  | more =>
    rw [textStep_more hcs hcut]
    rw [hcut] at hrej hacc
    exact ⟨hrej.mp, hacc.mp⟩
  | bad =>
    rw [hcut] at hrej hacc
    exact stepDecides_bad hcs hcut (hrej.mpr trivial) hacc.mp
  | line l r =>
    rw [textStep_line hcs hcut]
    rw [hcut] at hrej hacc
    have h0 := zero_notMem_cstr l
    obtain ⟨-, rfl⟩ := (cut_line_iff cr_ne_lf).mp hcut
    have hdrop : (l ++ 13 :: 10 :: r).drop (l.length + 2) = r := drop_line 13 10 l r
    by_cases hgood : RequestLine (cstr l)
    · obtain ⟨req', hlen, hv⟩ := request_verdict hgood req (l.length + 2)
      rw [hv]
      refine ⟨?_, ?_⟩
      · rw [hdrop, hrej]
        exact ⟨fun h _ => h, fun h => h hgood⟩
      · rw [hdrop, hacc, hlen]
        exact ⟨fun h => ⟨hgood, h⟩, And.right⟩
    · have hp := parseRequestLine_bad h0 hgood req
      rcases hq : parseRequestLine (cstr l) req with ⟨status, req'⟩
      rw [hq] at hp
      subst hp
      simp only [lineVerdict, hq]
      exact ⟨⟨fun _ => hrej.mpr fun h => absurd h hgood, fun _ => rfl⟩, fun h => (by cases h),
        fun h => absurd (hacc.mp h).1 hgood⟩

theorem stepDecides_header (req : HttpRequest) (s : Bytes) :
    StepDecides (.header, req) s (textStep (.header, req) s) := by
  have hrej := rejects_header_iff s
  have hacc := accepts_header_iff req.contentLenth s
  have hcs : ((RequestState.header, req) : Parse).1 ≠ .content := fun h => by cases h
  cases hcut : cut 13 10 s with
  | more =>
    rw [textStep_more hcs hcut]
    rw [hcut] at hrej hacc
    exact ⟨hrej.mp, hacc.mp⟩
  | bad =>
    rw [hcut] at hrej hacc
    exact stepDecides_bad hcs hcut (hrej.mpr trivial) hacc.mp
  | line l r =>
    rw [textStep_line hcs hcut]
    rw [hcut] at hrej hacc
    have h0 := zero_notMem_cstr l
    obtain ⟨-, rfl⟩ := (cut_line_iff cr_ne_lf).mp hcut
    have hdrop : (l ++ 13 :: 10 :: r).drop (l.length + 2) = r := drop_line 13 10 l r
    by_cases hblank : cstr l = []
    · -- the blank line
      have hacc' : Accepts .header req.contentLenth (l ++ 13 :: 10 :: r) ↔
          req.contentLenth ≤ r.length := hacc.trans (iff_of_eq (if_pos hblank))
      rw [blank_verdict hblank]
      by_cases hz : req.contentLenth = 0
      · rw [if_pos hz]
        exact ⟨⟨fun h => (by cases h), fun h => absurd hblank (hrej.mp h).1⟩,
          fun _ => hacc'.mpr (by omega), fun _ => rfl⟩
      · rw [if_neg hz]
        refine ⟨⟨fun h => absurd h (not_rejects_content _), fun h => absurd hblank (hrej.mp h).1⟩, ?_⟩
        rw [hdrop, hacc']
        exact accepts_content_iff _ _
    · have hacc' : Accepts .header req.contentLenth (l ++ 13 :: 10 :: r) ↔
          HeaderLine (cstr l) ∧ Accepts .header (lengthAfter req.contentLenth (cstr l)) r :=
        hacc.trans (iff_of_eq (if_neg hblank))
      by_cases hgood : HeaderLine (cstr l)
      · obtain ⟨req', hlen, hv⟩ := header_verdict hblank hgood req (l.length + 2)
        rw [hv]
        refine ⟨?_, ?_⟩
        · rw [hdrop, hrej]
          exact ⟨fun h => ⟨hblank, fun _ => h⟩, fun h => h.2 hgood⟩
        · rw [hdrop, hacc', hlen]
          exact ⟨fun h => ⟨hgood, h⟩, And.right⟩
      · simp only [lineVerdict, (parseHeaders_line h0 hblank req).2 hgood]
        exact ⟨⟨fun _ => hrej.mpr ⟨hblank, fun h => absurd h hgood⟩, fun _ => rfl⟩,
          fun h => (by cases h),
          fun h => absurd (hacc'.mp h).1 hgood⟩

theorem stepDecides (p : Parse) (s : Bytes) : StepDecides p s (textStep p s) := by
  obtain ⟨cs, req⟩ := p
  cases cs with
  | requestline => exact stepDecides_request req s
  | header => exact stepDecides_header req s
  | content =>
    have hrej := not_rejects_content s
    have hacc := accepts_content_iff req.contentLenth s
    by_cases hge : s.length ≥ req.contentLenth
    · rw [textStep_content rfl, if_pos hge]
      exact ⟨⟨fun h => (by cases h), fun h => absurd h hrej⟩, fun _ => hacc.mpr hge, fun _ => rfl⟩
    · rw [textStep_content rfl, if_neg hge]
      exact ⟨hrej, fun h => hge (hacc.mp h)⟩

theorem run_decides (p : Parse) (s : Bytes) :
    ((run textStep p s).1 = some .parseError ↔ Rejects p.1 s) ∧
      ((run textStep p s).1 = some .parseEnd ↔ Accepts p.1 p.2.contentLenth s) := by
  induction p, s using run_induction stable_textStep with
  | more p s hv =>
    have h := stepDecides p s
    rw [hv] at h
    rw [run_more hv]
    exact ⟨⟨fun h => (by cases h), fun hr => absurd hr h.1⟩,
      fun h => (by cases h), fun ha => absurd ha h.2⟩
  | stop p s status n q hv =>
    have h := stepDecides p s
    rw [hv] at h
    rw [run_stop hv, Option.some_inj, Option.some_inj]
    exact h
  | take p s n q hv ih =>
    have h := stepDecides p s
    rw [hv] at h
    rw [run_take stable_textStep hv]
    exact ⟨ih.1.trans h.1, ih.2.trans h.2⟩

/-! ## lines without NUL -/

theorem accepts_header_lines (n : Nat) (s : Bytes) :
    Accepts .header n s ↔ ∃ hs z r, s = joinLines 13 10 hs ++ (z ++ 13 :: 10 :: r) ∧
      (∀ h ∈ hs, Clean 13 10 h ∧ cstr h ≠ [] ∧ HeaderLine (cstr h)) ∧
      Clean 13 10 z ∧ cstr z = [] ∧ (hs.map cstr).foldl lengthAfter n ≤ r.length := by
  constructor
  · intro h
    generalize hcs : RequestState.header = cs at h
    induction h with
    | body hn => cases hcs
    | request hl hgood hr ih => cases hcs
    | @blank n l r hl hblank hn => exact ⟨[], l, r, rfl, by simp, hl, hblank, hn⟩
    | @field n l r hl hne hgood hr ih =>
      obtain ⟨hs, z, r', rfl, hhs, hz⟩ := ih rfl
      refine ⟨l :: hs, z, r', by simp, ?_, hz⟩
      intro h hm
      rcases List.mem_cons.mp hm with rfl | hm
      · exact ⟨hl, hne, hgood⟩
      · exact hhs h hm
  · rintro ⟨hs, z, r, rfl, hhs, hz, hblank, hn⟩
    induction hs generalizing n with
    | nil => exact .blank hz hblank hn
    | cons l hs ih =>
      obtain ⟨⟨hl, hne, hgood⟩, hhs'⟩ := List.forall_mem_cons.mp hhs
      have hr := ih (lengthAfter n (cstr l)) hhs' hn
      have h := Accepts.field hl hne hgood hr
      rw [joinLines_cons, List.append_assoc]
      exact h

/-- request line, header lines, blank line, each cut off at its first NUL, and what follows -/
structure ReadAs (l0 : Bytes) (hs : List Bytes) (z r : Bytes) : Prop where
  clean : ∀ l ∈ l0 :: (hs ++ [z]), Clean 13 10 l
  request : RequestLine (cstr l0)
  fields : ∀ h ∈ hs, cstr h ≠ [] ∧ HeaderLine (cstr h)
  blank : cstr z = []
  body : (hs.map cstr).foldl lengthAfter 0 ≤ r.length

theorem accepts_iff_readAs (s : Bytes) :
    Accepts .requestline 0 s ↔
      ∃ l0 hs z r, s = joinLines 13 10 (l0 :: (hs ++ [z])) ++ r ∧ ReadAs l0 hs z r := by
  have hjoin : ∀ (l0 : Bytes) (hs : List Bytes) (z r : Bytes),
      joinLines 13 10 (l0 :: (hs ++ [z])) ++ r =
        l0 ++ 13 :: 10 :: (joinLines 13 10 hs ++ (z ++ 13 :: 10 :: r)) := by
    intro l0 hs z r
    simp [joinLines_append]
  constructor
  · intro h
    cases h with
    | @request _ l0 r hl hgood hr =>
      obtain ⟨hs, z, r', rfl, hhs, hz, hblank, hn⟩ := (accepts_header_lines 0 r).mp hr
      refine ⟨l0, hs, z, r', (hjoin _ _ _ _).symm, ?_, hgood, fun h hm => (hhs h hm).2, hblank, hn⟩
      intro l hm
      rcases List.mem_cons.mp hm with rfl | hm
      · exact hl
      · rcases List.mem_append.mp hm with hm | hm
        · exact (hhs l hm).1
        · exact List.mem_singleton.mp hm ▸ hz
  · rintro ⟨l0, hs, z, r, rfl, h⟩
    rw [hjoin]
    have hclean := List.forall_mem_cons.mp h.clean
    refine .request hclean.1 h.request ((accepts_header_lines 0 _).mpr
      ⟨hs, z, r, rfl, fun l hm => ⟨hclean.2 l (List.mem_append_left _ hm), h.fields l hm⟩, ?_⟩)
    exact ⟨hclean.2 z (List.mem_append_right _ (List.mem_singleton_self z)), h.blank, h.body⟩

theorem rejects_header_lines (s : Bytes) :
    Rejects .header s ↔ ∃ hs rest, s = joinLines 13 10 hs ++ rest ∧
      (∀ h ∈ hs, Clean 13 10 h ∧ cstr h ≠ []) ∧
      ((∃ h ∈ hs, ¬ HeaderLine (cstr h)) ∨ Broken 13 10 rest) := by
  constructor
  · intro h
    generalize hcs : RequestState.header = cs at h
    induction h with
    | badRequest hl hbad => cases hcs
    | request hl hgood hr ih => cases hcs
    | @broken cs s _ hs => exact ⟨[], s, rfl, by simp, .inr hs⟩
    | @badField l r hl hne hbad => exact ⟨[l], r, by simp, by simp [hl, hne], .inl ⟨l, by simp, hbad⟩⟩
    | @field l r hl hne hgood hr ih =>
      obtain ⟨hs, rest, rfl, hhs, hbad⟩ := ih rfl
      refine ⟨l :: hs, rest, by simp, List.forall_mem_cons.mpr ⟨⟨hl, hne⟩, hhs⟩, ?_⟩
      rcases hbad with ⟨h, hm, hb⟩ | hb
      · exact .inl ⟨h, List.mem_cons_of_mem _ hm, hb⟩
      · exact .inr hb
  · rintro ⟨hs, rest, rfl, hhs, hbad⟩
    induction hs with
    | nil => exact .broken (by decide) (hbad.resolve_left (by simp))
    | cons l hs ih =>
      obtain ⟨⟨hl, hne⟩, hhs'⟩ := List.forall_mem_cons.mp hhs
      rw [joinLines_cons, List.append_assoc]
      by_cases hgood : HeaderLine (cstr l)
      · refine .field hl hne hgood (ih hhs' ?_)
        rcases hbad with ⟨h, hm, hb⟩ | hb
        · rcases List.mem_cons.mp hm with rfl | hm
          · exact absurd hgood hb
          · exact .inl ⟨h, hm, hb⟩
        · exact .inr hb
      · exact .badField hl hne hgood

/-- the lines `ls` stand at the head of the stream, all of them before its blank line -/
def HeadLines (s : Bytes) (ls : List Bytes) : Prop :=
  ∃ rest, s = joinLines 13 10 ls ++ rest ∧ (∀ l ∈ ls, Clean 13 10 l) ∧ ∀ l ∈ ls.tail, l ≠ []

/-- after its leading blanks a `Content-length:` line has digits only, below `2 ^ 63` -/
def LengthLine (l : Bytes) : Prop :=
  ∃ k w ds, l = k ++ (w ++ ds) ∧ k.length = 15 ∧ (∀ x ∈ w, x ∈ blanks) ∧
    ds ≠ [] ∧ (∀ x ∈ ds, isdigit x = true) ∧ digitsVal ds < 2 ^ 63

/-- the value of the last `Content-length:` line -/
def bodyLength (hs : List Bytes) : Nat :=
  hs.foldl (fun n h => if ContentLengthLine h then
    digitsVal ((h.drop 15).dropWhile (blanks.contains ·)) else n) 0

/-- `L0 CRLF H1 CRLF ... Hk CRLF CRLF b t` -/
def HoldsRequest (s : Bytes) : Prop :=
  ∃ l0 hs body t, s = joinLines 13 10 (l0 :: hs) ++ 13 :: 10 :: (body ++ t) ∧
    Clean 13 10 l0 ∧ RequestLine l0 ∧
    (∀ h ∈ hs, Clean 13 10 h ∧ h ≠ [] ∧ HeaderLine h) ∧ body.length = bodyLength hs

/-- before the blank line a complete line is not of its form, or a line end is broken -/
def BreaksGrammar (s : Bytes) : Prop :=
  ∃ ls rest, s = joinLines 13 10 ls ++ rest ∧ (∀ l ∈ ls, Clean 13 10 l) ∧ (∀ l ∈ ls.tail, l ≠ []) ∧
    ((∃ l ∈ ls.head?, ¬ RequestLine l) ∨ (∃ h ∈ ls.tail, ¬ HeaderLine h) ∨ Broken 13 10 rest)

theorem isdigit_iff (c : UInt8) : isdigit c = true ↔ 48 ≤ c ∧ c ≤ 57 := by
  simp [isdigit]

theorem atol_digits {ds : Bytes} (hne : ds ≠ []) (hds : ∀ x ∈ ds, isdigit x = true)
    (hlt : digitsVal ds < 2 ^ 63) : toSizeT (atol ds) = digitsVal ds := by
  have h0 : (0 : UInt8) ∉ ds := fun h => by
    have := hds 0 h
    exact absurd this (by decide)
  cases ds with
  | nil => exact absurd rfl hne
  | cons d t =>
    have hd := (isdigit_iff d).mp (hds d List.mem_cons_self)
    have hspace : isspace d = false := by
      simp only [isspace, Bool.or_eq_false_iff, Bool.and_eq_false_imp, beq_eq_false_iff_ne,
        decide_eq_true_eq, decide_eq_false_iff_not]
      refine ⟨fun e => ?_, fun _ h => ?_⟩
      · subst e; exact absurd hd.1 (by decide)
      · exact absurd (le_trans hd.1 h) (by decide)
    have hsign : sign (d :: t) = (false, d :: t) := by
      have h45 : d ≠ 45 := fun e => by subst e; exact absurd hd.1 (by decide)
      have h43 : d ≠ 43 := fun e => by subst e; exact absurd hd.1 (by decide)
      simp [sign, h45, h43]
    have htake : (d :: t).takeWhile isdigit = d :: t := List.takeWhile_eq_self_iff.mpr hds
    rw [atol, cstr_of_notMem h0, List.dropWhile_cons_of_neg (by simp [hspace]), hsign]
    simp only [htake, toSizeT, Bool.false_eq_true, ite_false]
    omega

theorem lengthAfter_lengthLine {l : Bytes} (hcl : ContentLengthLine l) (h : LengthLine l) (n : Nat) :
    lengthAfter n l = digitsVal ((l.drop 15).dropWhile (blanks.contains ·)) := by
  obtain ⟨k, w, ds, rfl, hk, hw, hne, hds, hlt⟩ := h
  have hdrop : ((k ++ (w ++ ds)).drop 15).dropWhile (blanks.contains ·) = ds := by
    rw [← hk, List.drop_left, List.dropWhile_append_of_pos (fun x hx => by simpa using hw x hx)]
    cases ds with
    | nil => rfl
    | cons d t =>
      have hd := (isdigit_iff d).mp (hds d List.mem_cons_self)
      refine List.dropWhile_cons_of_neg ?_
      intro hb
      have : d = 32 ∨ d = 9 := by simpa [blanks] using hb
      rcases this with rfl | rfl
      · exact absurd hd.1 (by decide)
      · exact absurd hd.1 (by decide)
  rw [lengthAfter, if_pos hcl, hdrop, atol_digits hne hds hlt]

section
variable {s : Bytes} (hnul : ∀ ls, HeadLines s ls → ∀ l ∈ ls, (0 : UInt8) ∉ l)
include hnul

/-- on lines without NUL the C strings are the lines -/
theorem head_cstr {ls : List Bytes} (h : HeadLines s ls) : ls.map cstr = ls := by
  have e : ∀ l ∈ ls, cstr l = id l := fun l hl => cstr_of_notMem (hnul ls h l hl)
  rw [List.map_congr_left e, List.map_id]

theorem breaksGrammar_iff : Rejects .requestline s ↔ BreaksGrammar s := by
  constructor
  · intro h
    cases h with
    | broken _ hs => exact ⟨[], s, rfl, by simp, by simp, .inr (.inr hs)⟩
    | @badRequest l r hl hbad =>
      have hh : HeadLines (l ++ 13 :: 10 :: r) [l] := ⟨r, by simp, by simpa using hl, by simp⟩
      rw [cstr_of_notMem (hnul _ hh l (by simp))] at hbad
      exact ⟨[l], r, by simp, by simpa using hl, by simp, .inl ⟨l, rfl, hbad⟩⟩
    | @request l r hl hgood hr =>
      obtain ⟨hs, rest, rfl, hhs, hbad⟩ := (rejects_header_lines r).mp hr
      have hne : ∀ h ∈ hs, h ≠ [] := fun h hm e => (hhs h hm).2 (by rw [e]; rfl)
      have hclean : ∀ h ∈ l :: hs, Clean 13 10 h :=
        List.forall_mem_cons.mpr ⟨hl, fun h hm => (hhs h hm).1⟩
      have hh : HeadLines (l ++ 13 :: 10 :: (joinLines 13 10 hs ++ rest)) (l :: hs) :=
        ⟨rest, by simp, hclean, hne⟩
      refine ⟨l :: hs, rest, by simp, hclean, hne, .inr ?_⟩
      rcases hbad with ⟨h, hm, hb⟩ | hb
      · rw [cstr_of_notMem (hnul _ hh h (List.mem_cons_of_mem _ hm))] at hb
        exact .inl ⟨h, hm, hb⟩
      · exact .inr hb
  · rintro ⟨ls, rest, rfl, hclean, hne, hbad⟩
    have hh : HeadLines (joinLines 13 10 ls ++ rest) ls := ⟨rest, rfl, hclean, hne⟩
    have hcstr : ∀ l ∈ ls, cstr l = l := fun l hl => cstr_of_notMem (hnul _ hh l hl)
    cases ls with
    | nil =>
      rcases hbad with ⟨l, hl, -⟩ | ⟨l, hl, -⟩ | hb
      · cases hl
      · cases hl
      · exact .broken (by decide) hb
    | cons l hs =>
      obtain ⟨hl, hhs⟩ := List.forall_mem_cons.mp hclean
      obtain ⟨hcl, hchs⟩ := List.forall_mem_cons.mp hcstr
      rw [joinLines_cons, List.append_assoc]
      by_cases hgood : RequestLine l
      · refine .request hl (by rw [hcl]; exact hgood) ((rejects_header_lines _).mpr
          ⟨hs, rest, rfl, fun h hm => ⟨hhs h hm, by rw [hchs h hm]; exact hne h hm⟩, ?_⟩)
        rcases hbad with ⟨l', hl', hb⟩ | ⟨h, hm, hb⟩ | hb
        · cases hl'
          exact absurd hgood hb
        · exact .inl ⟨h, hm, by rw [hchs h hm]; exact hb⟩
        · exact .inr hb
      · exact .badRequest hl (by rw [hcl]; exact hgood)

theorem holdsRequest_iff
    (hlen : ∀ ls, HeadLines s ls → ∀ l ∈ ls.tail, ContentLengthLine l → LengthLine l) :
    Accepts .requestline 0 s ↔ HoldsRequest s := by
  -- the two ways to compute the body length agree on the lines at hand
  have hbody : ∀ {l0 : Bytes} {hs : List Bytes}, HeadLines s (l0 :: hs) →
      (hs.map cstr).foldl lengthAfter 0 = bodyLength hs := by
    intro l0 hs hh
    rw [(List.cons.inj (head_cstr hnul hh)).2]
    have e : ∀ h ∈ hs, ∀ n, lengthAfter n h = if ContentLengthLine h then
        digitsVal ((h.drop 15).dropWhile (blanks.contains ·)) else n := by
      intro h hm n
      by_cases hcl : ContentLengthLine h
      · rw [lengthAfter_lengthLine hcl (hlen _ hh h hm hcl), if_pos hcl]
      · rw [lengthAfter, if_neg hcl, if_neg hcl]
    exact List.foldl_ext _ _ _ (fun n h hm => e h hm n)
  constructor
  · intro h
    obtain ⟨l0, hs, z, r, rfl, hread⟩ := (accepts_iff_readAs s).mp h
    obtain ⟨hl0, hclean⟩ := List.forall_mem_cons.mp hread.clean
    have hne : ∀ h ∈ hs, h ≠ [] := fun h hm e => (hread.fields h hm).1 (by rw [e]; rfl)
    have hz : z = [] := by
      by_contra hzne
      have hhz : HeadLines (joinLines 13 10 (l0 :: (hs ++ [z])) ++ r) (l0 :: (hs ++ [z])) := by
        refine ⟨r, rfl, hread.clean, fun l hl => ?_⟩
        rcases List.mem_append.mp hl with hl | hl
        · exact hne l hl
        · exact List.mem_singleton.mp hl ▸ hzne
      have hblank := hread.blank
      rw [cstr_of_notMem (hnul _ hhz z (by simp))] at hblank
      exact hzne hblank
    subst hz
    have hjoin : joinLines 13 10 (l0 :: (hs ++ [[]])) ++ r =
        joinLines 13 10 (l0 :: hs) ++ 13 :: 10 :: r := by
      simp [joinLines_append]
    have hclean' : ∀ h ∈ hs, Clean 13 10 h := fun h hm => hclean h (List.mem_append_left _ hm)
    have hh : HeadLines (joinLines 13 10 (l0 :: (hs ++ [[]])) ++ r) (l0 :: hs) :=
      ⟨13 :: 10 :: r, hjoin, List.forall_mem_cons.mpr ⟨hl0, hclean'⟩, hne⟩
    have hn := hread.body
    rw [hbody hh] at hn
    have hcl : cstr l0 = l0 := cstr_of_notMem (hnul _ hh l0 (by simp))
    refine ⟨l0, hs, r.take (bodyLength hs), r.drop (bodyLength hs), ?_, hl0, hcl ▸ hread.request,
      ?_, ?_⟩
    · rw [List.take_append_drop, hjoin]
    · intro h hm
      have hch : cstr h = h := cstr_of_notMem (hnul _ hh h (List.mem_cons_of_mem _ hm))
      exact ⟨hclean' h hm, hne h hm, hch ▸ (hread.fields h hm).2⟩
    · rw [List.length_take]
      omega
  · rintro ⟨l0, hs, body, t, rfl, hl0, hgood, hhs, hlenb⟩
    have hh : HeadLines (joinLines 13 10 (l0 :: hs) ++ 13 :: 10 :: (body ++ t)) (l0 :: hs) :=
      ⟨_, rfl, List.forall_mem_cons.mpr ⟨hl0, fun h hm => (hhs h hm).1⟩, fun h hm => (hhs h hm).2.1⟩
    have hcl : cstr l0 = l0 := cstr_of_notMem (hnul _ hh l0 (by simp))
    have hn := hbody hh
    rw [joinLines_cons, List.append_assoc]
    refine .request hl0 (hcl.symm ▸ hgood) ((accepts_header_lines 0 _).mpr
      ⟨hs, [], body ++ t, rfl, ?_, clean_nil _ _, rfl, ?_⟩)
    · intro h hm
      have hch : cstr h = h := cstr_of_notMem (hnul _ hh h (List.mem_cons_of_mem _ hm))
      rw [hch]
      exact hhs h hm
    · rw [hn, List.length_append]
      omega

end

/-- **The parser accepts exactly its grammar.** -/
theorem parse_grammar (m : HttpMethod) (c : HttpStatus) (b : Buffer) (s : Bytes)
    (hs : b.readable = s)
    (hnul : ∀ ls, HeadLines s ls → ∀ l ∈ ls, (0 : UInt8) ∉ l)
    (hlen : ∀ ls, HeadLines s ls → ∀ l ∈ ls.tail, ContentLengthLine l → LengthLine l) :
    ∃ status h' b', (HttpHandler.fresh m c).parseHttp b = some (status, h', b') ∧
      (status = .parseEnd ↔ HoldsRequest s) ∧
      (status = .parseError ↔ BreaksGrammar s) ∧
      (status = .parseRecv ↔ ¬ HoldsRequest s ∧ ¬ BreaksGrammar s) := by
  obtain ⟨h', b', hrun, -⟩ := parseHttp_spec (h := HttpHandler.fresh m c) (b := b)
    (tracks_zero _ _ rfl)
  rw [hs] at hrun
  obtain ⟨herr, hend⟩ := run_decides (.requestline, (HttpHandler.fresh m c).req) s
  rw [breaksGrammar_iff hnul] at herr
  have hend' := hend.trans (holdsRequest_iff hnul hlen)
  refine ⟨_, h', b', hrun, ?_⟩
  rw [← herr, ← hend']
  rcases hr : run textStep (.requestline, (HttpHandler.fresh m c).req) s with ⟨_ | status, p, rest⟩
  · have e : (run textStep ((HttpHandler.fresh m c).checkState, (HttpHandler.fresh m c).req) s).1
        = none := congrArg Prod.fst hr
    rw [e]
    simp [statusOf]
  · have e : (run textStep ((HttpHandler.fresh m c).checkState, (HttpHandler.fresh m c).req) s).1
        = some status := congrArg Prod.fst hr
    rw [e]
    rcases run_status hr with rfl | rfl
    · simp [statusOf]
    · simp [statusOf]

end Feipu
