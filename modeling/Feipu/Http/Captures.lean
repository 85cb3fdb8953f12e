import Feipu.Http.Routing
import Mathlib.Data.List.Perm.Subperm

/-!
# Captures by name

A pattern as the readme writes it is made of literals, ":name" and "{name}" fields and a "*name" at
the end.

* `bindings`   the entries it should put into `path_matches`;
* `bound_iff`  the router puts them there exactly when the pattern has no ":name" and no "{name}":
               the key of a field is its whole segment, with the `':'` or the braces.
-/

namespace Feipu
open CStr Segments Router

/-! ## patterns -/

inductive PatternSeg where
  | literal (text : Bytes)
  /-- ":name" -/
  | colon (name : Bytes)
  /-- "{name}" -/
  | brace (name : Bytes)
  /-- "*name" -/
  | star (name : Bytes)

namespace PatternSeg

def text : PatternSeg → Bytes
  | literal text => text
  | colon name => 58 :: name
  | brace name => 123 :: (name ++ [125])
  | star name => 42 :: name

def name? : PatternSeg → Option Bytes
  | literal _ => none
  | colon name => some name
  | brace name => some name
  | star name => some name

/-- the two kinds that take one segment of the path -/
def IsField : PatternSeg → Prop
  | literal _ => False
  | colon _ => True
  | brace _ => True
  | star _ => False

/-- a literal is not to be read as one of the other kinds -/
def Proper : PatternSeg → Prop
  | literal text => SegText text ∧ ¬ IsParam text ∧ ¬ IsStar text
  | colon name => SegText name
  | brace name => SegText name
  | star name => SegText name

theorem Proper.segText {s : PatternSeg} (h : s.Proper) : SegText s.text := by
  cases s with
  | literal text => exact h.1
  | colon name => exact List.forall_mem_cons.mpr ⟨rfl, h⟩
  | brace name =>
    refine List.forall_mem_cons.mpr ⟨rfl, ?_⟩
    intro c hc
    rcases List.mem_append.mp hc with hc | hc
    · exact h c hc
    · rw [List.mem_singleton.mp hc]
      rfl
  | star name => exact List.forall_mem_cons.mpr ⟨rfl, h⟩

end PatternSeg

/-- a pattern with names that are all different and a "*name" at most at its end -/
structure Pattern where
  segs : List PatternSeg
  nonempty : segs ≠ []
  proper : ∀ s ∈ segs, s.Proper
  starLast : StarLast (segs.map PatternSeg.text)
  names : (segs.filterMap PatternSeg.name?).Nodup

def Pattern.text (p : Pattern) : Bytes := joinSegs slash (p.segs.map PatternSeg.text)

/-- the names bound to the segments of a path; the name of a "*name" to all that remains -/
def bindings : List PatternSeg → List Bytes → List (Bytes × Bytes)
  | .literal _ :: segs, _ :: vs => bindings segs vs
  | .colon name :: segs, v :: vs => (name, v) :: bindings segs vs
  | .brace name :: segs, v :: vs => (name, v) :: bindings segs vs
  | .star name :: _, v :: vs => [(name, (joinSegs slash (v :: vs)).tail)]
  | _, _ => []

namespace Pattern

theorem segText (p : Pattern) : ∀ k ∈ p.segs.map PatternSeg.text, SegText k := by
  intro k hk
  obtain ⟨s, hs, rfl⟩ := List.mem_map.mp hk
  exact (p.proper s hs).segText

theorem head?_text (p : Pattern) : p.text.head? = some slash := by
  unfold text
  cases h : p.segs with
  | nil => exact absurd h p.nonempty
  | cons s segs => rfl

theorem cstr_text (p : Pattern) : cstr p.text = p.text := by
  apply cstr_of_notMem
  intro h
  obtain ⟨k, hk, h⟩ := List.mem_flatMap.mp h
  rcases List.mem_cons.mp h with h | h
  · exact slash_ne_zero h.symm
  · exact (inSegment_iff.mp (p.segText k hk 0 h)).1 rfl

theorem segments_text (p : Pattern) :
    segments slash (cstr p.text) = p.segs.map PatternSeg.text := by
  rw [p.cstr_text]
  apply segments_joinSegs
  · exact fun h => p.nonempty (List.map_eq_nil_iff.mp h)
  · exact fun k hk h => (inSegment_iff.mp (p.segText k hk slash h)).2 rfl

theorem routable (p : Pattern) : Routable p.text := by
  refine ⟨p.head?_text, ?_⟩
  rw [p.segments_text]
  exact p.starLast

end Pattern

/-! ## keys -/

/-- the bytes of all keys -/
def keyBytes (es : List (Bytes × Bytes)) : Nat := ((es.map (·.1)).map List.length).sum

/-- what the walk captures and what should be bound, of one pattern and path -/
structure Captured (segs : List PatternSeg) (es bs : List (Bytes × Bytes)) : Prop where
  length : es.length = bs.length
  keys : keyBytes bs ≤ keyBytes es
  longer : (∃ s ∈ segs, s.IsField) → keyBytes bs < keyBytes es
  same : (∀ s ∈ segs, ¬ s.IsField) → es = bs

theorem Captured.literal {t : Bytes} {segs : List PatternSeg} {es bs : List (Bytes × Bytes)}
    (h : Captured segs es bs) : Captured (.literal t :: segs) es bs := by
  refine ⟨h.length, h.keys, ?_, fun hno => h.same (List.forall_mem_cons.mp hno).2⟩
  intro ⟨s, hs, hfield⟩
  rcases List.mem_cons.mp hs with rfl | hs
  · cases hfield
  · exact h.longer ⟨s, hs, hfield⟩

/-- a field is captured under a key that is longer than its name -/
theorem Captured.field {s : PatternSeg} (hs : s.IsField) {name v : Bytes}
    (hname : name.length < s.text.length) {segs : List PatternSeg} {es bs : List (Bytes × Bytes)}
    (h : Captured segs es bs) : Captured (s :: segs) ((s.text, v) :: es) ((name, v) :: bs) := by
  have hkeys := h.keys
  have hlt : keyBytes ((name, v) :: bs) < keyBytes ((s.text, v) :: es) := by
    show name.length + keyBytes bs < s.text.length + keyBytes es
    omega
  refine ⟨?_, hlt.le, fun _ => hlt, fun hno => absurd hs (hno s List.mem_cons_self)⟩
  rw [List.length_cons, List.length_cons, h.length]

theorem captured_bindings {segs : List PatternSeg} (hp : ∀ s ∈ segs, s.Proper) {vs : List Bytes}
    {es : List (Bytes × Bytes)} (h : SegMatch (segs.map PatternSeg.text) vs es) :
    Captured segs es (bindings segs vs) := by
  induction segs generalizing vs es with
  | nil =>
    cases h
    exact ⟨rfl, Nat.le_refl _, fun ⟨s, hs, _⟩ => absurd hs List.not_mem_nil, fun _ => rfl⟩
  | cons s segs ih =>
    obtain ⟨hs, hsegs⟩ := List.forall_mem_cons.mp hp
    rw [List.map_cons] at h
    cases s with
    | literal t =>
      obtain ⟨ws, rfl, hrest⟩ := h.of_literal hs.2.1 hs.2.2
      exact (ih hsegs hrest).literal
    | colon name =>
      obtain ⟨v, ws, ds, rfl, rfl, hrest⟩ := h.of_param (.inl rfl)
      exact (ih hsegs hrest).field (s := .colon name) trivial (Nat.lt_succ_self _)
    | brace name =>
      obtain ⟨v, ws, ds, rfl, rfl, hrest⟩ := h.of_param (.inr rfl)
      refine (ih hsegs hrest).field (s := .brace name) trivial ?_
      show name.length < (123 :: (name ++ [125])).length
      rw [List.length_cons, List.length_append]
      omega
    | star name =>
      obtain ⟨hnil, v, ws, rfl, rfl⟩ := h.of_star
      rw [List.map_eq_nil_iff.mp hnil]
      refine ⟨rfl, Nat.le_refl _, ?_, fun _ => rfl⟩
      intro ⟨s, hs, hfield⟩
      rw [List.mem_singleton.mp hs] at hfield
      cases hfield

/-- the bound keys are names of the pattern, in its order -/
theorem keys_bindings (segs : List PatternSeg) (vs : List Bytes) :
    ((bindings segs vs).map (·.1)).Sublist (segs.filterMap PatternSeg.name?) := by
  induction segs generalizing vs with
  | nil => exact List.nil_sublist _
  | cons s segs ih =>
    cases vs with
    | nil =>
      cases s <;> exact List.nil_sublist _
    | cons v vs =>
      cases s with
      | literal t => exact ih vs
      | colon name => exact (ih vs).cons_cons name
      | brace name => exact (ih vs).cons_cons name
      | star name => exact (List.nil_sublist _).cons_cons name

/-! ## what is bound -/

/-- the walk over the table takes the entry with this pattern -/
def Router.Selected (r : Router) (req : HttpRequest) (pattern : Bytes) : Prop :=
  ∃ before handlers after, r.entries = before ++ (pattern, handlers) :: after ∧
    (∀ e ∈ before, answer req e = none) ∧ (answer req (pattern, handlers)).isSome

theorem Router.Selected.match' {r : Router} {req : HttpRequest} {p : Pattern}
    (h : r.Selected req p.text) : ∃ m es,
      SegMatch (p.segs.map PatternSeg.text) (segments slash (matchPath req)) es ∧
        r.match' req = .ok (m, capture req es) := by
  obtain ⟨before, handlers, after, hentries, hbefore, hsome⟩ := h
  obtain ⟨o, ho⟩ := Option.isSome_iff_exists.mp hsome
  obtain ⟨es, m, hm, -, rfl⟩ := (answer_iff p.routable).mp ho
  have hseg := hm.2
  rw [p.segments_text] at hseg
  refine ⟨m.handler, es, hseg, ?_⟩
  show matchEntries req r.entries = _
  rw [matchEntries_eq, hentries, List.findSome?_append, List.findSome?_eq_none_iff.mpr hbefore,
    Option.none_or, List.findSome?_cons_of_isSome hsome, ho]
  rfl

/-- the captures of a request that had none -/
theorem capture_fresh {req : HttpRequest} (h : req.pathMatches = .empty)
    (es : List (Bytes × Bytes)) :
    (capture req es).pathMatches = es.foldl (fun m e => m.set e.1 e.2) .empty := by
  show List.foldl _ req.pathMatches _ = _
  rw [h, SMap.foldl_set_entries]

/-- **The names are bound exactly when the pattern has no ":name" and no "{name}".** -/
theorem bound_iff (p : Pattern) {r : Router} {req : HttpRequest}
    (hfresh : req.pathMatches = .empty) (hsel : r.Selected req p.text) :
    ∃ func req', r.match' req = .ok (func, req') ∧
      ((∀ b, b ∈ req'.pathMatches.entries ↔
          b ∈ bindings p.segs (segments slash (matchPath req))) ↔
        ∀ s ∈ p.segs, ¬ s.IsField) := by
  obtain ⟨m, es, hseg, hmatch⟩ := hsel.match'
  refine ⟨m, capture req es, hmatch, ?_⟩
  rw [capture_fresh hfresh]
  have hcap := captured_bindings p.proper hseg
  have hkeys := keys_bindings p.segs (segments slash (matchPath req))
  generalize bindings p.segs (segments slash (matchPath req)) = bs at hcap hkeys ⊢
  have hnodup : (bs.map (·.1)).Nodup := p.names.sublist hkeys
  constructor
  · intro h s hs hfield
    have hsub : bs.map (·.1) ⊆ es.map (·.1) := by
      intro k hk
      obtain ⟨b, hb, rfl⟩ := List.mem_map.mp hk
      have hb' := SMap.mem_foldl_set ((h b).mpr hb)
      exact List.mem_map.mpr ⟨b, hb'.resolve_right List.not_mem_nil, rfl⟩
    have hperm : (bs.map (·.1)).Perm (es.map (·.1)) := by
      apply (hnodup.subperm hsub).perm_of_length_le
      rw [List.length_map, List.length_map, hcap.length]
    have hsum : keyBytes bs = keyBytes es := (hperm.map List.length).sum_nat
    exact absurd hsum (Nat.ne_of_lt (hcap.longer ⟨s, hs, hfield⟩))
  · intro hno b
    rw [hcap.same hno, SMap.mem_foldl_set_iff (List.pairwise_map.mp hnodup)]
    exact or_iff_left fun h => absurd h.1 List.not_mem_nil

theorem proper_a : (PatternSeg.literal (asc "a")).Proper := by
  refine ⟨?_, ?_, ?_⟩
  · intro c hc
    rw [List.mem_singleton.mp hc]
    rfl
  · decide
  · decide

/-- "/a/*r" -/
def patternAR : Pattern where
  segs := [.literal (asc "a"), .star (asc "r")]
  nonempty := List.cons_ne_nil _ _
  proper := List.forall_mem_cons.mpr ⟨proper_a, List.forall_mem_cons.mpr ⟨by
    intro c hc
    rw [List.mem_singleton.mp hc]
    rfl, fun _ h => absurd h List.not_mem_nil⟩⟩
  starLast := List.forall_mem_cons.mpr ⟨proper_a.2.2, fun _ h => absurd h List.not_mem_nil⟩
  names := List.nodup_singleton _

/-- "/a/:x" -/
def patternAX : Pattern where
  segs := [.literal (asc "a"), .colon (asc "x")]
  nonempty := List.cons_ne_nil _ _
  proper := List.forall_mem_cons.mpr ⟨proper_a, List.forall_mem_cons.mpr ⟨by
    intro c hc
    rw [List.mem_singleton.mp hc]
    rfl, fun _ h => absurd h List.not_mem_nil⟩⟩
  starLast := List.forall_mem_cons.mpr ⟨proper_a.2.2, fun _ h => absurd h List.not_mem_nil⟩
  names := List.nodup_singleton _

/-- the table with one GET route -/
def oneRoute (p : Pattern) : Router := ⟨[(p.text, [⟨.get, idle⟩])]⟩

/-- GET /a/b binds "r" to "b" under "/a/*r" -/
theorem bound_patternAR : ∃ func req', (oneRoute patternAR).match' getAB = .ok (func, req') ∧
    (asc "r", asc "b") ∈ req'.pathMatches.entries := by
  have hsel : (oneRoute patternAR).Selected getAB patternAR.text :=
    ⟨[], _, [], rfl, fun _ h => absurd h List.not_mem_nil, rfl⟩
  obtain ⟨func, req', hmatch, hiff⟩ := bound_iff patternAR rfl hsel
  refine ⟨func, req', hmatch, (hiff.mpr ?_ _).mpr ?_⟩
  · exact List.forall_mem_cons.mpr ⟨fun h => h, List.forall_mem_cons.mpr ⟨fun h => h,
      fun _ h => absurd h List.not_mem_nil⟩⟩
  · show _ ∈ bindings patternAR.segs (segments slash (asc "/a/b"))
    rw [segments_ab]
    exact List.mem_singleton.mpr rfl

/-- GET /a/b under "/a/:x": the key is ":x" -/
theorem unbound_patternAX : ¬ ∀ (p : Pattern) (r : Router) (req : HttpRequest),
    req.pathMatches = .empty → r.Selected req p.text →
    ∃ func req', r.match' req = .ok (func, req') ∧
      ∀ b, b ∈ req'.pathMatches.entries ↔
        b ∈ bindings p.segs (segments slash (matchPath req)) := by
  intro hall
  obtain ⟨func, req', hmatch, hbound⟩ := hall patternAX (oneRoute patternAX) getAB rfl
    ⟨[], _, [], rfl, fun _ h => absurd h List.not_mem_nil, rfl⟩
  have hentries : req'.pathMatches.entries = [(asc ":x", asc "b")] :=
    congrArg (fun y : HandleFuc × HttpRequest => y.2.pathMatches.entries)
      (Except.ok.inj hmatch).symm
  have hx : (asc "x", asc "b") ∈ bindings patternAX.segs (segments slash (asc "/a/b")) := by
    rw [segments_ab]
    exact List.mem_singleton.mpr rfl
  have hmem := (hbound (asc "x", asc "b")).mpr hx
  rw [hentries, List.mem_singleton] at hmem
  exact absurd hmem (by decide)

end Feipu
