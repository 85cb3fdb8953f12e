import Feipu.Http.Parse

/-!
# The lines of a request

`RequestLine`, `ContentLengthLine` and `FieldLine` are the forms a line may have, stated without the
parser; `Says l k v`: the header line `l` gives the name `k` the value `v`.

* `parseRequestLine_eq`, `parseHeaders_eq`    what a good line stores;
* `parseRequestLine_bad`, `parseHeaders_bad`    the parser refuses the others.
-/

namespace Feipu
open CStr Lines Consume

/-! ## lines -/

/-- the six method names -/
def methodNames : List Bytes := httpMethodMap.map (·.2)

/-- `M SP U SP HTTP/1.1` -/
def RequestLine (l : Bytes) : Prop :=
  ∃ m u, m ∈ methodNames ∧ u ≠ [] ∧ 32 ∉ u ∧ l = m ++ 32 :: (u ++ 32 :: asc "HTTP/1.1")

/-- the line begins, in any case, with `Content-length:` -/
def ContentLengthLine (l : Bytes) : Prop :=
  ∃ k v, l = k ++ v ∧ k.map tolower = contentLengthKey.map tolower

/-- after its leading blanks the line starts with something other than `':'`, and it has a `':'` -/
def FieldLine (l : Bytes) : Prop :=
  ∃ w c t, l = w ++ c :: t ∧ (∀ x ∈ w, x ∈ blanks) ∧ c ∉ blanks ∧ c ≠ 58 ∧ 58 ∈ l

def HeaderLine (l : Bytes) : Prop := ContentLengthLine l ∨ FieldLine l

theorem contentLengthLine_iff (l : Bytes) :
    ContentLengthLine l ↔ (l.take 15).map tolower = contentLengthKey.map tolower := by
  constructor
  · rintro ⟨k, v, rfl, hk⟩
    have hlen : k.length = 15 := by
      have h := congrArg List.length hk
      rw [List.length_map, List.length_map] at h
      exact h
    rw [← hlen, List.take_left, hk]
  · intro h
    exact ⟨l.take 15, l.drop 15, (List.take_append_drop 15 l).symm, h⟩

instance (l : Bytes) : Decidable (ContentLengthLine l) :=
  decidable_of_iff _ (contentLengthLine_iff l).symm

/-- a word of a line without NUL ends at the first blank, if there is one -/
theorem word_cases {l : Bytes} (h0 : 0 ∉ l) :
    (32 ∉ l ∧ l.takeWhile inWord = l) ∨
      ∃ w r, l = w ++ 32 :: r ∧ 32 ∉ w ∧ l.takeWhile inWord = w := by
  induction l with
  | nil => exact .inl ⟨List.not_mem_nil, rfl⟩
  | cons c l ih =>
    have hc0 : c ≠ 0 := fun e => h0 (e ▸ List.mem_cons_self)
    by_cases hc : c = 32
    · subst hc
      exact .inr ⟨[], l, rfl, List.not_mem_nil, rfl⟩
    · have hw : inWord c = true := by simp [inWord, hc0, hc]
      rcases ih (fun hm => h0 (List.mem_cons_of_mem _ hm)) with ⟨h32, ht⟩ | ⟨w, r, rfl, h32, ht⟩
      · refine .inl ⟨fun hm => ?_, by rw [List.takeWhile_cons_of_pos hw, ht]⟩
        rcases List.mem_cons.mp hm with e | hm
        · exact hc e.symm
        · exact h32 hm
      · refine .inr ⟨c :: w, r, rfl, fun hm => ?_, by rw [List.takeWhile_cons_of_pos hw, ht]⟩
        rcases List.mem_cons.mp hm with e | hm
        · exact hc e.symm
        · exact h32 hm

theorem mem_methodNames_iff {m : Bytes} (h0 : 0 ∉ m) :
    m ∈ methodNames ↔ httpMethodEnum m ≠ .unexpectMethod := by
  rw [httpMethodEnum, cstr_of_notMem h0]
  have hall : ∀ e ∈ httpMethodMap, e.1 ≠ .unexpectMethod := by decide
  constructor
  · intro hm
    obtain ⟨e, he, rfl⟩ := List.mem_map.mp hm
    cases hf : httpMethodMap.find? (fun e' => e'.2 == e.2) with
    | none => exact absurd (List.find?_eq_none.mp hf e he) (by simp)
    | some e' => exact hall e' (List.mem_of_find?_eq_some hf)
  · intro hm
    cases hf : httpMethodMap.find? (fun e => e.2 == m) with
    | none => rw [hf] at hm; exact absurd rfl hm
    | some e =>
      have he : (e.2 == m) = true := List.find?_some (p := fun e : HttpMethod × Bytes => e.2 == m) hf
      exact List.mem_map.mpr ⟨e, List.mem_of_find?_eq_some hf, eq_of_beq he⟩

theorem methodNames_noBlank {m : Bytes} (h : m ∈ methodNames) : 32 ∉ m := by
  have hall : ∀ m ∈ methodNames, 32 ∉ m := by decide
  exact hall m h

/-- a method and a path are stored, whatever follows the second blank -/
theorem parseRequestLine_words {m u : Bytes} (hm : m ∈ methodNames) (hm0 : 0 ∉ m) (hu : u ≠ [])
    (hu0 : 0 ∉ u) (hu32 : 32 ∉ u) (v : Bytes) (req : HttpRequest) :
    parseRequestLine (m ++ 32 :: (u ++ 32 :: v)) req =
      match HttpRequest.setVersion { req with method := httpMethodEnum m, path := u } (cstr v) with
      | none => (.parseError, { req with method := httpMethodEnum m, path := u })
      | some req => (.parseNext, req) := by
  have hm32 := methodNames_noBlank hm
  have hword : ∀ {w r : Bytes}, 0 ∉ w → 32 ∉ w → (w ++ 32 :: r).takeWhile inWord = w := by
    intro w r hw0 hw32
    rw [List.takeWhile_append_of_pos (fun c hc => by
      have h1 : c ≠ 0 := fun e => hw0 (e ▸ hc)
      have h2 : c ≠ 32 := fun e => hw32 (e ▸ hc)
      simp [inWord, h1, h2])]
    simp [inWord]
  have hset : httpMethodEnum m ≠ .unexpectMethod := (mem_methodNames_iff hm0).mp hm
  unfold parseRequestLine
  simp only [hword hm0 hm32, List.drop_left, List.drop_succ_cons, List.drop_zero]
  rw [if_neg (by simp [at']), HttpRequest.setMethod, if_neg hset]
  simp only [hword hu0 hu32, List.drop_left, List.drop_succ_cons, List.drop_zero]
  rw [if_neg (by simp [at']), HttpRequest.setUrl]
  cases hv : HttpRequest.setVersion { req with method := httpMethodEnum m, path := u } (cstr v) with
  | none => simp only [if_neg hu, hv]
  | some req' => simp only [if_neg hu, hv]

/-- the request line of `m` and `u` stores them -/
theorem parseRequestLine_eq {m u : Bytes} (hm : m ∈ methodNames) (hm0 : 0 ∉ m) (hu : u ≠ [])
    (hu0 : 0 ∉ u) (hu32 : 32 ∉ u) (req : HttpRequest) :
    parseRequestLine (m ++ 32 :: (u ++ 32 :: asc "HTTP/1.1")) req =
      (.parseNext, { req with method := httpMethodEnum m, path := u, version := asc "HTTP/1.1" }) := by
  rw [parseRequestLine_words hm hm0 hu hu0 hu32]
  rfl

theorem parseRequestLine_good {l : Bytes} (h0 : 0 ∉ l) (h : RequestLine l) (req : HttpRequest) :
    ∃ req', parseRequestLine l req = (.parseNext, req') ∧ req'.contentLenth = req.contentLenth := by
  obtain ⟨m, u, hm, hu, hu32, rfl⟩ := h
  have hm0 : 0 ∉ m := fun h => h0 (List.mem_append_left _ h)
  have hu0 : 0 ∉ u := fun h => h0 (by simp [h])
  exact ⟨_, parseRequestLine_eq hm hm0 hu hu0 hu32 req, rfl⟩

theorem parseRequestLine_bad {l : Bytes} (h0 : 0 ∉ l) (h : ¬ RequestLine l) (req : HttpRequest) :
    (parseRequestLine l req).1 = .parseError := by
  unfold parseRequestLine
  rcases word_cases h0 with ⟨-, hw⟩ | ⟨m, r, rfl, hm32, hw⟩
  · simp only [hw, List.drop_length]
    rfl
  have hm0 : 0 ∉ m := fun h => h0 (List.mem_append_left _ h)
  have hr0 : 0 ∉ r := fun h => h0 (List.mem_append_right _ (List.mem_cons_of_mem _ h))
  simp only [hw, List.drop_left, List.drop_succ_cons, List.drop_zero]
  rw [if_neg (by simp [at'])]
  by_cases hm : m ∈ methodNames
  · rw [HttpRequest.setMethod, if_neg ((mem_methodNames_iff hm0).mp hm)]
    rcases word_cases hr0 with ⟨-, hw⟩ | ⟨u, v, rfl, hu32, hw⟩
    · simp only [hw, List.drop_length]
      rfl
    have hv0 : 0 ∉ v := fun h => hr0 (List.mem_append_right _ (List.mem_cons_of_mem _ h))
    simp only [hw, List.drop_left, List.drop_succ_cons, List.drop_zero]
    rw [if_neg (by simp [at']), HttpRequest.setUrl]
    by_cases hu : u = []
    · rw [if_pos hu]
    · rw [if_neg hu]
      have hv : v ≠ asc "HTTP/1.1" := by
        rintro rfl
        exact h ⟨m, u, hm, hu, hu32, rfl⟩
      simp only [cstr_of_notMem hv0, HttpRequest.setVersion, if_neg hv]
  · have hset : httpMethodEnum m = .unexpectMethod := by
      by_contra hne
      exact hm ((mem_methodNames_iff hm0).mpr hne)
    rw [HttpRequest.setMethod, if_pos hset]

/-! ## header lines -/

/-- the body length after a header line, given the one before -/
def lengthAfter (n : Nat) (l : Bytes) : Nat :=
  if ContentLengthLine l then toSizeT (atol ((l.drop 15).dropWhile (blanks.contains ·))) else n

theorem strncaseeq_iff {l : Bytes} (h0 : 0 ∉ l) :
    strncaseeq l contentLengthKey 15 = true ↔ ContentLengthLine l := by
  have hk : (cstr contentLengthKey).take 15 = contentLengthKey := by decide
  rw [contentLengthLine_iff, strncaseeq, cstr_of_notMem h0, hk, beq_iff_eq]

/-- `text += strspn (text, " \t")` on a line without NUL -/
theorem drop_blanks {l : Bytes} (h0 : 0 ∉ l) :
    l.drop (strspn l blanks) = l.dropWhile (blanks.contains ·) := by
  have h := drop_strspn l blanks
  rwa [cstr_of_notMem h0] at h

/-- a field line, by what is left once the leading blanks are skipped -/
theorem fieldLine_iff (l : Bytes) :
    FieldLine l ↔ ∃ c t, l.dropWhile (blanks.contains ·) = c :: t ∧ c ≠ 58 ∧ 58 ∈ t := by
  have hsplit := List.takeWhile_append_dropWhile (p := (blanks.contains ·)) (l := l)
  have hw : ∀ x ∈ l.takeWhile (blanks.contains ·), x ∈ blanks := fun x hx => by
    have h := List.mem_takeWhile_imp hx
    simpa using h
  constructor
  · rintro ⟨w, c, t, rfl, hblank, hc, hc58, h58⟩
    refine ⟨c, t, ?_, hc58, ?_⟩
    · rw [List.dropWhile_append_of_pos (fun x hx => by simpa using hblank x hx),
        List.dropWhile_cons_of_neg (by simpa using hc)]
    · rcases List.mem_append.mp h58 with h | h
      · exact absurd (hblank _ h) (by decide)
      · rcases List.mem_cons.mp h with h | h
        · exact absurd h.symm hc58
        · exact h
  · rintro ⟨c, t, hd, hc58, h58⟩
    rw [hd] at hsplit
    have hc : c ∉ blanks := by
      have h := List.head?_dropWhile_not (blanks.contains ·) l
      rw [hd] at h
      simpa using h
    refine ⟨_, c, t, hsplit.symm, hw, hc, hc58, ?_⟩
    rw [← hsplit]
    exact List.mem_append_right _ (List.mem_cons_of_mem _ h58)

theorem parseHeaders_nil (req : HttpRequest) :
    parseHeaders [] req = (if req.contentLenth ≠ 0 then .parseNext else .parseEnd, req) := rfl

/-- the bytes do not start with a blank -/
def Unled (v : Bytes) : Prop := ∀ c ∈ v.head?, c ∉ blanks

theorem dropWhile_unled {w v : Bytes} (hw : ∀ x ∈ w, x ∈ blanks) (hv : Unled v) :
    (w ++ v).dropWhile (blanks.contains ·) = v := by
  rw [List.dropWhile_append_of_pos (fun x hx => by simpa using hw x hx)]
  cases v with
  | nil => rfl
  | cons c v =>
    have hc : c ∉ blanks := hv c rfl
    exact List.dropWhile_cons_of_neg (by simpa using hc)

theorem unled_dropWhile (l : Bytes) : Unled (l.dropWhile (blanks.contains ·)) := by
  intro c hc
  have h := List.head?_dropWhile_not (blanks.contains ·) l
  have hc : (l.dropWhile (blanks.contains ·)).head? = some c := hc
  rw [hc] at h
  simpa using h

/-- the name is a spelling of `Content-length` -/
def IsContentLength (k : Bytes) : Prop := k.map tolower = (asc "Content-length").map tolower

instance (k : Bytes) : Decidable (IsContentLength k) :=
  inferInstanceAs (Decidable (k.map tolower = _))

theorem tolower_eq_iff {c d : UInt8} (hd : d < 65) : tolower c = d ↔ c = d := by
  have h65 : d.toNat < 65 := hd
  unfold tolower
  split
  · rename_i hc
    obtain ⟨h1, h2⟩ := hc
    have h1 : 65 ≤ c.toNat := h1
    have h2 : c.toNat ≤ 90 := h2
    have h3 : UInt8.toNat 32 = 32 := rfl
    constructor
    · intro h
      have h4 := congrArg UInt8.toNat h
      rw [UInt8.toNat_add] at h4
      omega
    · rintro rfl
      omega
  · rfl

theorem tolower_colon (c : UInt8) : tolower c = 58 ↔ c = 58 := tolower_eq_iff (by decide)

theorem colon_mem_map_tolower {k : Bytes} : 58 ∈ k.map tolower ↔ 58 ∈ k := by
  constructor
  · intro h
    obtain ⟨c, hc, he⟩ := List.mem_map.mp h
    exact (tolower_colon c).mp he ▸ hc
  · exact fun h => List.mem_map.mpr ⟨58, h, rfl⟩

theorem IsContentLength.no_colon {k : Bytes} (h : IsContentLength k) : 58 ∉ k := by
  intro hk
  have hmem := colon_mem_map_tolower.mpr hk
  rw [h] at hmem
  exact absurd hmem (by decide)

/-- a line with a name is a content-length line by its name -/
theorem contentLengthLine_colon {k : Bytes} (hk : 58 ∉ k) (x : Bytes) :
    ContentLengthLine (k ++ 58 :: x) ↔ IsContentLength k := by
  have hkey : contentLengthKey.map tolower = (asc "Content-length").map tolower ++ [58] := by decide
  constructor
  · rintro ⟨k', v, heq, hk'⟩
    rw [hkey] at hk'
    obtain ⟨a, d, rfl, ha, hd⟩ := List.map_eq_append_iff.mp hk'
    obtain ⟨c, rfl, hc⟩ := List.map_eq_singleton_iff.mp hd
    obtain rfl := (tolower_colon c).mp hc
    rw [List.append_assoc] at heq
    obtain ⟨rfl, -⟩ := split_first hk (IsContentLength.no_colon ha) heq
    exact ha
  · intro h
    refine ⟨k ++ [58], x, by simp, ?_⟩
    rw [List.map_append, h, hkey]
    rfl

/-- the header line `l` gives the name `k` the value `v`: the line starts with a spelling of
`Content-length:`, or has a name after its leading blanks -/
inductive Says (l : Bytes) : Bytes → Bytes → Prop where
  | contentLength : ContentLengthLine l →
      Says l (asc "Content-length") ((l.drop 15).dropWhile (blanks.contains ·))
  | field {w k b v : Bytes} : ¬ ContentLengthLine l → l = w ++ (k ++ 58 :: (b ++ v)) →
      (∀ x ∈ w, x ∈ blanks) → (∀ x ∈ b, x ∈ blanks) → k ≠ [] → Unled k → 58 ∉ k → Unled v →
      Says l k v

/-- one blank is all blanks -/
theorem blank_singleton : ∀ x ∈ [(32 : UInt8)], x ∈ blanks := by
  intro x hx
  rw [List.mem_singleton.mp hx]
  decide

theorem gives_of_headerLine {l : Bytes} (h : HeaderLine l) : ∃ k v, Says l k v := by
  by_cases hcl : ContentLengthLine l
  · exact ⟨_, _, .contentLength hcl⟩
  · obtain ⟨w, c, t, rfl, hw, hcb, hc, h58⟩ := h.resolve_left hcl
    have hmem : 58 ∈ c :: t := by
      rcases List.mem_append.mp h58 with h | h
      · exact absurd (hw _ h) (by decide)
      · exact h
    obtain ⟨k, x, he, hk⟩ := List.eq_append_cons_of_mem hmem
    have hkne : k ≠ [] := by
      rintro rfl
      exact hc (List.cons.inj he).1
    have hhead : k.head? = some c := by
      cases k with
      | nil => exact absurd rfl hkne
      | cons d k => rw [(List.cons.inj he).1]; rfl
    refine ⟨k, x.dropWhile (blanks.contains ·), .field (b := x.takeWhile (blanks.contains ·))
      hcl ?_ hw ?_ hkne ?_ hk (unled_dropWhile x)⟩
    · rw [List.takeWhile_append_dropWhile, he]
    · intro y hy
      have h := List.mem_takeWhile_imp hy
      simpa using h
    · intro d hd
      have hd : k.head? = some d := hd
      rw [hhead] at hd
      exact Option.some.inj hd ▸ hcb

/-- a name starts with neither a blank nor a `':'` -/
theorem strcspn_name {c : UInt8} {t : Bytes} (h0 : 0 ∉ c :: t) (hc : c ∉ blanks) (h58 : c ≠ 58) :
    strcspn (c :: t) (asc " \t:") ≠ 0 := by
  have hmem : c ∉ asc " \t:" := by
    intro hm
    have hm : c = 32 ∨ c = 9 ∨ c = 58 := by simpa [asc] using hm
    rcases hm with rfl | rfl | rfl
    · exact hc (by decide)
    · exact hc (by decide)
    · exact h58 rfl
  rw [strcspn, cstr_of_notMem h0, List.takeWhile_cons_of_pos (by simpa using hmem)]
  exact Nat.succ_ne_zero _

theorem parseHeaders_eq {l k v : Bytes} (h0 : 0 ∉ l) (h : Says l k v) (req : HttpRequest) :
    parseHeaders l req = (.parseRecv, { req with
      headers := req.headers.set k v
      contentLenth := lengthAfter req.contentLenth l }) := by
  cases h with
  | contentLength hcl =>
    have hz : at' l 0 ≠ 0 := by
      intro h
      have hnil : l = [] := by rw [← cstr_of_notMem h0]; exact (at_zero_iff l).mp h
      subst hnil
      exact absurd hcl (by decide)
    have h15 : 0 ∉ l.drop 15 := fun h => h0 (List.mem_of_mem_drop h)
    have hv : 0 ∉ (l.drop 15).dropWhile (blanks.contains ·) := fun h =>
      h15 ((List.dropWhile_suffix _).mem h)
    unfold parseHeaders
    rw [if_neg hz, if_pos ((strncaseeq_iff h0).mpr hcl)]
    show (ParseStatus.parseRecv, { req with
      headers := req.headers.set (asc "Content-length")
        (cstr ((l.drop 15).drop (strspn (l.drop 15) blanks)))
      contentLenth := toSizeT (atol ((l.drop 15).drop (strspn (l.drop 15) blanks))) }) = _
    rw [drop_blanks h15, cstr_of_notMem hv, lengthAfter, if_pos hcl]
  | @field w _ b _ hcl hl hw hb hkne hk h58 hv =>
    subst hl
    have hk0 : 0 ∉ k ++ 58 :: (b ++ v) := fun h => h0 (List.mem_append_right _ h)
    have hx0 : 0 ∉ b ++ v := fun h =>
      hk0 (List.mem_append_right _ (List.mem_cons_of_mem _ h))
    have hv0 : 0 ∉ v := fun h => hx0 (List.mem_append_right _ h)
    have hun : Unled (k ++ 58 :: (b ++ v)) := by
      cases k with
      | nil => exact absurd rfl hkne
      | cons c k => exact hk
    have hz : at' (w ++ (k ++ 58 :: (b ++ v))) 0 ≠ 0 := by
      intro h
      have hnil := (at_zero_iff _).mp h
      rw [cstr_of_notMem h0] at hnil
      simp at hnil
    have hdrop : (w ++ (k ++ 58 :: (b ++ v))).drop (strspn (w ++ (k ++ 58 :: (b ++ v))) blanks) =
        k ++ 58 :: (b ++ v) := by
      rw [drop_blanks h0, dropWhile_unled hw hun]
    have hspn : strcspn (k ++ 58 :: (b ++ v)) (asc " \t:") ≠ 0 := by
      cases k with
      | nil => exact absurd rfl hkne
      | cons c k => exact strcspn_name hk0 (hk c rfl) fun e => h58 (e ▸ List.mem_cons_self)
    have hcolon : strpbrk (k ++ 58 :: (b ++ v)) (asc ":") = some k.length := by
      rw [strpbrk, cstr_of_notMem hk0, List.findIdx?_eq_some_iff_getElem]
      refine ⟨by simp, by simp [asc], ?_⟩
      intro j hj
      rw [List.getElem_append_left hj]
      have hne : k[j] ≠ 58 := fun e => h58 (e ▸ List.getElem_mem hj)
      simpa [asc] using hne
    have hrest : (k ++ 58 :: (b ++ v)).drop (k.length + 1) = b ++ v := by
      rw [← List.drop_drop, List.drop_left]
      rfl
    unfold parseHeaders
    simp only [if_neg hz, if_neg (mt (strncaseeq_iff h0).mp hcl), hdrop, if_neg hspn, hcolon,
      List.take_left, hrest, drop_blanks hx0, dropWhile_unled hb hv, cstr_of_notMem hv0]
    rw [lengthAfter, if_neg hcl]

/-- a line that is no header line -/
theorem parseHeaders_bad {l : Bytes} (h0 : 0 ∉ l) (hne : l ≠ []) (h : ¬ HeaderLine l)
    (req : HttpRequest) : parseHeaders l req = (.parseError, req) := by
  have hz : at' l 0 ≠ 0 := fun h => hne (by rw [← cstr_of_notMem h0]; exact (at_zero_iff l).mp h)
  have hkey : ¬ strncaseeq l contentLengthKey 15 = true :=
    mt (strncaseeq_iff h0).mp fun hcl => h (.inl hcl)
  have hfield := mt (fieldLine_iff l).mpr fun hf => h (.inr hf)
  have hd0 : 0 ∉ l.dropWhile (blanks.contains ·) := fun h => h0 ((List.dropWhile_suffix _).mem h)
  have hun := unled_dropWhile l
  unfold parseHeaders
  simp only [if_neg hz, if_neg hkey, drop_blanks h0]
  cases hd : l.dropWhile (blanks.contains ·) with
  | nil => rfl
  | cons c t =>
    rw [hd] at hfield hd0 hun
    by_cases hc : c = 58
    · subst hc
      rfl
    · have h58 : 58 ∉ c :: t := by
        intro hm
        rcases List.mem_cons.mp hm with hm | hm
        · exact hc hm.symm
        · exact hfield ⟨c, t, rfl, hc, hm⟩
      have hcolon : strpbrk (c :: t) (asc ":") = none := by
        rw [strpbrk, cstr_of_notMem hd0, List.findIdx?_eq_none_iff]
        intro x hx
        have hx58 : x ≠ 58 := fun e => h58 (e ▸ hx)
        simpa [asc] using hx58
      rw [if_neg (strcspn_name hd0 (hun c rfl) hc), hcolon]

theorem parseHeaders_line {l : Bytes} (h0 : 0 ∉ l) (hne : l ≠ []) (req : HttpRequest) :
    (HeaderLine l → ∃ req', parseHeaders l req = (.parseRecv, req') ∧
        req'.contentLenth = lengthAfter req.contentLenth l) ∧
      (¬ HeaderLine l → parseHeaders l req = (.parseError, req)) := by
  refine ⟨?_, fun h => parseHeaders_bad h0 hne h req⟩
  intro h
  obtain ⟨k, v, hs⟩ := gives_of_headerLine h
  exact ⟨_, parseHeaders_eq h0 hs req, rfl⟩

end Feipu
