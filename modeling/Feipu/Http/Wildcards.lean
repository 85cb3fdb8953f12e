import Feipu.Http.Received
import Feipu.Http.Routing

/-!
# Wildcards in the middle of a pattern

`route` takes every pattern; `match` ends the process when it comes to a "*name" that something
follows.

* `Misused`              the patterns with such a "*name" that a request can lead to;
* `match_survives_iff`   no request that is received ends the process exactly when none of these
                         patterns has been registered.
-/

namespace Feipu
open CStr Segments

/-- the bytes can stand in a request line, before the `'?'` of its path -/
def Literal (k : Bytes) : Prop := ∀ c ∈ k, c ≠ 63 ∧ c ≠ 32 ∧ c ≠ 13 ∧ c ≠ 10

/-- the shortest segment of a path that takes the walk past a segment of the pattern -/
def passing (k : Bytes) : Bytes := if IsParam k then [] else k

/-! ## the way to a "*name" -/

theorem length_passing_le (k : Bytes) : (passing k).length ≤ k.length := by
  unfold passing
  split
  · exact Nat.zero_le _
  · exact Nat.le_refl _

theorem segText_passing {k : Bytes} (h : SegText k) : SegText (passing k) := by
  unfold passing
  split
  · exact fun c hc => absurd hc List.not_mem_nil
  · exact h

/-- what a path has to pass before it reaches a "*name" -/
theorem Reaches.split {ks vs : List Bytes} (h : Reaches ks vs) :
    ∃ front name back, ks = front ++ (42 :: name) :: back ∧ back ≠ [] ∧ back ≠ [[]] ∧
      (∀ k ∈ front, ¬ IsStar k ∧ (IsParam k ∨ k ∈ vs)) ∧
      (joinSegs slash (front.map passing ++ [[]])).length ≤ (joinSegs slash vs).length := by
  induction h with
  | @star name v back vs h1 h2 =>
    refine ⟨[], name, back, rfl, h1, h2, fun k hk => absurd hk List.not_mem_nil, ?_⟩
    rw [joinSegs_cons]
    exact Nat.succ_le_succ (Nat.zero_le _)
  | @literal k ks vs hp hs _ ih =>
    obtain ⟨front, name, back, rfl, h1, h2, hfront, hlen⟩ := ih
    refine ⟨k :: front, name, back, rfl, h1, h2, fun k' hk' => ?_, ?_⟩
    · rcases List.mem_cons.mp hk' with rfl | hk'
      · exact ⟨hs, .inr List.mem_cons_self⟩
      · exact ⟨(hfront k' hk').1, (hfront k' hk').2.imp_right (List.mem_cons_of_mem _)⟩
    · rw [List.map_cons, List.cons_append, joinSegs_cons, joinSegs_cons, List.length_cons,
        List.length_cons, List.length_append, List.length_append]
      have := length_passing_le k
      omega
  | @param k v ks vs hp _ ih =>
    obtain ⟨front, name, back, rfl, h1, h2, hfront, hlen⟩ := ih
    refine ⟨k :: front, name, back, rfl, h1, h2, fun k' hk' => ?_, ?_⟩
    · rcases List.mem_cons.mp hk' with rfl | hk'
      · exact ⟨isParam_not_star hp, .inl hp⟩
      · exact ⟨(hfront k' hk').1, (hfront k' hk').2.imp_right (List.mem_cons_of_mem _)⟩
    · have hnil : passing k = [] := if_pos hp
      rw [List.map_cons, List.cons_append, hnil, joinSegs_cons, joinSegs_cons, List.length_cons,
        List.length_cons, List.length_append, List.length_append, List.length_nil]
      omega

/-- the passing segments take the walk there -/
theorem reaches_passing {front back : List Bytes} {name : Bytes} (h1 : back ≠ []) (h2 : back ≠ [[]])
    (hfront : ∀ k ∈ front, ¬ IsStar k) :
    Reaches (front ++ (42 :: name) :: back) (front.map passing ++ [[]]) := by
  induction front with
  | nil => exact .star h1 h2
  | cons k front ih =>
    obtain ⟨hstar, hstars⟩ := List.forall_mem_cons.mp hfront
    rw [List.cons_append, List.map_cons, List.cons_append]
    by_cases hparam : IsParam k
    · exact .param hparam (ih hstars)
    · rw [passing, if_neg hparam]
      exact .literal hparam hstar (ih hstars)

namespace Router

/-! ## one pattern -/

/-- the shortest path to a "*name" that stands behind `lead` and the segments `front` -/
def approach (lead : Bytes) (front : List Bytes) : Bytes :=
  lead ++ joinSegs slash (front.map passing ++ [[]])

/-- a request can lead to a "*name" that more than a final `'/'` follows: what stands before it can
stand in a request line, whose length an `int` can count -/
def Misused (pattern : Bytes) : Prop :=
  ∃ lead front name back, Splits (cstr pattern) lead (front ++ (42 :: name) :: back) ∧
    back ≠ [] ∧ back ≠ [[]] ∧ Literal lead ∧
    (∀ k ∈ front, ¬ IsStar k ∧ (IsParam k ∨ Literal k)) ∧
    (approach lead front).length + 6 < 2 ^ 31

theorem matchPath_isPrefix (req : HttpRequest) : matchPath req <+: req.path := List.takeWhile_prefix _

theorem question_notMem_matchPath (req : HttpRequest) : 63 ∉ matchPath req := by
  intro h
  have h' := List.mem_takeWhile_imp h
  cases h'

/-- the request of a path without NUL and `'?'` -/
theorem matchPath_of_notMem {req : HttpRequest} (h0 : 0 ∉ req.path) (hq : 63 ∉ req.path) :
    matchPath req = req.path := by
  refine List.takeWhile_eq_self_iff.mpr fun c hc => ?_
  have h0 : c ≠ 0 := fun h => h0 (h ▸ hc)
  have hq : c ≠ 63 := fun h => hq (h ▸ hc)
  rw [Bool.and_eq_true, bne_iff_ne, bne_iff_ne]
  exact ⟨h0, hq⟩

/-- **No misuse, no hit**: a path that a request line can carry leads to a misused pattern only. -/
theorem Hits.misused {pattern : Bytes} {req : HttpRequest} (h : Hits pattern req)
    (hpath : Carried req.path) : Misused pattern := by
  obtain ⟨lead, ks, vs, hk, hv, hr⟩ := h
  obtain ⟨front, name, back, rfl, h1, h2, hfront, hlen⟩ := hr.split
  have hbyte : ∀ c ∈ matchPath req, c ≠ 63 ∧ c ≠ 32 ∧ c ≠ 13 ∧ c ≠ 10 := by
    intro c hc
    refine ⟨?_, (hpath.bytes c ((matchPath_isPrefix req).mem hc)).2⟩
    rintro rfl
    exact question_notMem_matchPath req hc
  refine ⟨lead, front, name, back, hk, h1, h2, fun c hc => hbyte c ?_, fun k hkm => ?_, ?_⟩
  · rw [hv.eq]
    exact List.mem_append_left _ hc
  · refine ⟨(hfront k hkm).1, (hfront k hkm).2.imp_right fun hmem c hc => hbyte c ?_⟩
    rw [hv.eq]
    refine List.mem_append_right _ (List.mem_flatMap.mpr ⟨k, hmem, ?_⟩)
    exact List.mem_cons_of_mem _ hc
  · have hle := (matchPath_isPrefix req).length_le
    have hfits := hpath.length
    rw [hv.eq, List.length_append] at hle
    rw [approach, List.length_append]
    omega

/-- **Misuse**: the shortest path to the "*name" can be received. -/
theorem Misused.hits {pattern : Bytes} (h : Misused pattern) :
    ∃ path, Carried path ∧ ∀ req : HttpRequest, req.path = path → Hits pattern req := by
  obtain ⟨lead, front, name, back, hk, h1, h2, hlead, hfront, hlen⟩ := h
  obtain ⟨htext, htexts⟩ := List.forall_mem_cons.mp hk.text
  have hpass : ∀ v ∈ front.map passing ++ [[]], SegText v ∧ Literal v := by
    intro v hv
    rcases List.mem_append.mp hv with hv | hv
    · obtain ⟨k, hkm, rfl⟩ := List.mem_map.mp hv
      refine ⟨segText_passing (htexts k (List.mem_append_left _ hkm)), ?_⟩
      unfold passing
      split
      · exact fun c hc => absurd hc List.not_mem_nil
      · rename_i hparam
        exact (hfront k hkm).2.resolve_left hparam
    · rw [List.mem_singleton.mp hv]
      exact ⟨fun c hc => absurd hc List.not_mem_nil, fun c hc => absurd hc List.not_mem_nil⟩
  have hbyte : ∀ c ∈ approach lead front, c ≠ 0 ∧ c ≠ 63 ∧ c ≠ 32 ∧ c ≠ 13 ∧ c ≠ 10 := by
    intro c hc
    rcases List.mem_append.mp hc with hc | hc
    · exact ⟨(inSegment_iff.mp (htext c hc)).1, hlead c hc⟩
    · obtain ⟨v, hv, hc⟩ := List.mem_flatMap.mp hc
      rcases List.mem_cons.mp hc with rfl | hc
      · decide
      · exact ⟨(inSegment_iff.mp ((hpass v hv).1 c hc)).1, (hpass v hv).2 c hc⟩
  refine ⟨approach lead front, ⟨fun c hc => ⟨(hbyte c hc).1, (hbyte c hc).2.2⟩, hlen⟩, ?_⟩
  intro req hreq
  have hpath : matchPath req = approach lead front := by
    rw [matchPath_of_notMem, hreq]
    · exact fun h0 => (hbyte 0 (hreq ▸ h0)).1 rfl
    · exact fun hq => (hbyte 63 (hreq ▸ hq)).2.1 rfl
  refine ⟨lead, _, front.map passing ++ [[]], hk, ⟨hpath, ?_⟩,
    reaches_passing h1 h2 fun k hkm => (hfront k hkm).1⟩
  exact List.forall_mem_cons.mpr ⟨htext, fun v hv => (hpass v hv).1⟩

/-! ## the table -/

/-- what ends the process is a pattern that the request hits -/
theorem match'_error {r : Router} {req : HttpRequest} {f : Fatal} (h : r.match' req = .error f) :
    ∃ e ∈ r.entries, Hits e.1 req := by
  change matchEntries req r.entries = _ at h
  rw [matchEntries_eq] at h
  cases hfirst : r.entries.findSome? (answer req) with
  | none =>
    rw [hfirst] at h
    cases h
  | some o =>
    rw [hfirst] at h
    obtain rfl : o = .error f := h
    obtain ⟨e, he, hans⟩ := List.exists_of_findSome?_eq_some hfirst
    rcases answer_eq_some.mp hans with ⟨es, m, -, -, ho⟩ | ⟨hhits, -⟩
    · cases ho
    · exact ⟨e, he, hhits⟩

/-- **No request that is received ends the process**, whatever the order of the table, exactly when
no pattern that has been registered is misused. -/
theorem match_survives_iff {routes : List (Bytes × HttpMethodHandler)} {r : Router}
    (hr : routeAll routes = .ok r) :
    (∀ r' : Router, r'.entries.Perm r.entries → ∀ req, Parsing.Received req →
        ∀ f, r'.match' req ≠ .error f) ↔
      ∀ e ∈ routes, ¬ Misused e.1 := by
  have ht := (filled_of_routeAll hr).tabled
  constructor
  · intro h e he hmis
    obtain ⟨path, hcarried, hhits⟩ := hmis.hits
    obtain ⟨req, hreceived, hpath⟩ := (Parsing.received_iff path).mpr hcarried
    obtain ⟨hs, hmem, -⟩ := (ht.registered e.1 e.2).mpr he
    obtain ⟨l1, l2, hentries⟩ := List.append_of_mem hmem
    have hans : answer req (e.1, hs) = some (.error .routerMatch) :=
      answer_eq_some.mpr (.inr ⟨hhits req hpath, rfl⟩)
    -- the order in which the entry comes first
    refine h ⟨(e.1, hs) :: (l1 ++ l2)⟩ (hentries ▸ List.perm_middle.symm) req hreceived .routerMatch ?_
    show matchEntries req ((e.1, hs) :: (l1 ++ l2)) = _
    rw [matchEntries_eq, List.findSome?_cons, hans]
    rfl
  · intro h r' hperm req hreceived f hmatch
    obtain ⟨e, he, hhits⟩ := match'_error hmatch
    have he' := hperm.mem_iff.mp he
    obtain ⟨m, hm⟩ := List.exists_mem_of_ne_nil _ (ht.handled e he')
    exact h _ ((ht.registered e.1 m).mp ⟨e.2, he', hm⟩)
      (hhits.misused (Parsing.carried_received hreceived))

/-- a pattern with its "*name" at the end -/
theorem Routable.not_misused {pattern : Bytes} (h : Routable pattern) : ¬ Misused pattern := by
  intro hmis
  obtain ⟨path, -, hhits⟩ := hmis.hits
  exact h.not_hits _ (hhits { HttpRequest.new .get with path } rfl)

/-- GET /a/b ends no process -/
theorem match_survives_overlapping : ∃ r, routeAll overlapping = .ok r ∧
    ∀ r' : Router, r'.entries.Perm r.entries → ∀ req, Parsing.Received req →
      ∀ f, r'.match' req ≠ .error f := by
  have hd : (overlapping.map fun e => (e.1, e.2.method)).Nodup := by decide
  obtain ⟨r, hr, -⟩ := routeAll_ok hd
  exact ⟨r, hr, (match_survives_iff hr).mpr fun e he => (routable_overlapping e he).not_misused⟩

/-- "/*a/b" is registered, and the path "/" ends the process -/
theorem match_star_middle : ¬ ∀ routes r, routeAll routes = .ok r →
    ∀ req, Parsing.Received req → ∀ f, r.match' req ≠ .error f := by
  intro hall
  obtain ⟨req, hreceived, hpath⟩ := (Parsing.received_iff (asc "/")).mpr carried_slash
  refine hall [(asc "/*a/b", ⟨.get, idle⟩)] _ rfl req hreceived .routerMatch ?_
  show matchEntries req [(asc "/*a/b", [⟨.get, idle⟩])] = _
  have hmatch : matchPath req = asc "/" := by
    rw [matchPath, hpath]
    rfl
  rw [matchEntries, hmatch]
  rfl

end Router

end Feipu
