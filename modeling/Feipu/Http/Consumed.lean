import Feipu.Http.Grammar

/-!
# What a message takes from the buffer

A line is taken with its end.  A body is taken with all that is readable, whatever its length.

* `consumed_iff`   a request takes exactly its own bytes when it has no body, or when a chunk ends
                   where it ends.
-/

namespace Feipu
open CStr Lines Consume

/-! ## whole messages -/

/-- the rest of a request and no more, `n` being the body length known so far; `body` is its body -/
inductive Whole : RequestState → Nat → Bytes → Bytes → Prop where
  | blank {n l body} (hl : Clean 13 10 l) (hblank : cstr l = []) (hn : body.length = n) :
      Whole .header n (l ++ 13 :: 10 :: body) body
  | field {n l r body} (hl : Clean 13 10 l) (hne : cstr l ≠ []) (hgood : HeaderLine (cstr l))
      (hr : Whole .header (lengthAfter n (cstr l)) r body) :
      Whole .header n (l ++ 13 :: 10 :: r) body
  | request {n l r body} (hl : Clean 13 10 l) (hgood : RequestLine (cstr l))
      (hr : Whole .header n r body) : Whole .requestline n (l ++ 13 :: 10 :: r) body

/-- a stream holds a request exactly when it starts with a whole one -/
theorem accepts_iff_whole {cs : RequestState} (hcs : cs ≠ .content) (n : Nat) (s : Bytes) :
    Accepts cs n s ↔ ∃ m body t, s = m ++ t ∧ Whole cs n m body := by
  constructor
  · intro h
    induction h with
    | body => exact absurd rfl hcs
    | @blank n l r hl hblank hn =>
      refine ⟨l ++ 13 :: 10 :: r.take n, r.take n, r.drop n, ?_, .blank hl hblank ?_⟩
      · rw [List.append_assoc, List.cons_append, List.cons_append, List.take_append_drop]
      · rw [List.length_take, Nat.min_eq_left hn]
    | @field n l r hl hne hgood _ ih =>
      obtain ⟨m, body, t, rfl, hm⟩ := ih (fun h => by cases h)
      exact ⟨_, body, t, by rw [List.append_assoc]; rfl, .field hl hne hgood hm⟩
    | @request n l r hl hgood _ ih =>
      obtain ⟨m, body, t, rfl, hm⟩ := ih (fun h => by cases h)
      exact ⟨_, body, t, by rw [List.append_assoc]; rfl, .request hl hgood hm⟩
  · rintro ⟨m, body, t, rfl, hm⟩
    induction hm with
    | @blank n l body hl hblank hn =>
      rw [List.append_assoc, List.cons_append, List.cons_append]
      refine .blank hl hblank ?_
      rw [← hn, List.length_append]
      exact Nat.le_add_right _ _
    | field hl hne hgood _ ih =>
      rw [List.append_assoc]
      exact .field hl hne hgood (ih fun h => by cases h)
    | request hl hgood _ ih =>
      rw [List.append_assoc]
      exact .request hl hgood (ih fun h => by cases h)

/-! ## the parser on a whole message -/

/-- **The run over a whole message** leaves what follows it, if there is no body, and otherwise
nothing. -/
theorem Whole.run {cs : RequestState} {n : Nat} {m body : Bytes} (h : Whole cs n m body)
    (req : HttpRequest) (hn : req.contentLenth = n) (t : Bytes) :
    ∃ q, Consume.run textStep (cs, req) (m ++ t) =
      (some .parseEnd, q, if body = [] then t else []) := by
  induction h generalizing req with
  | @blank n l body hl hblank hlen =>
    have hcs : ((RequestState.header, req) : Parse).1 ≠ .content := fun h => by cases h
    have hv := blank_verdict hblank req (l.length + 2)
    rw [List.append_assoc, List.cons_append, List.cons_append]
    by_cases hb : body = []
    · subst hb
      have hz : req.contentLenth = 0 := hn.trans hlen.symm
      rw [if_pos hz] at hv
      have hstep : textStep (.header, req) (l ++ 13 :: 10 :: ([] ++ t)) =
          .stop .parseEnd (l.length + 2) (.header, req) := by
        rw [textStep_line hcs (cut_line 13 10 hl _), hv]
      refine ⟨(.header, req), ?_⟩
      rw [run_stop hstep, if_pos rfl, drop_line]
      rfl
    · have hz : req.contentLenth ≠ 0 := by
        rw [hn, ← hlen]
        exact fun h => hb (List.length_eq_zero_iff.mp h)
      rw [if_neg hz] at hv
      rw [run_taken hl hcs hv, if_neg hb]
      have hbody := textStep_content (p := (.content, req)) rfl (body ++ t)
      rw [if_pos (by rw [List.length_append]; show _ ≥ req.contentLenth; omega)] at hbody
      rw [run_stop hbody, List.drop_length]
      exact ⟨_, rfl⟩
  | @field n l r body hl hne hgood _ ih =>
    obtain ⟨req', hlen, hv⟩ := header_verdict hne hgood req (l.length + 2)
    rw [List.append_assoc, List.cons_append, List.cons_append,
      run_taken hl (fun h => by cases h) hv]
    exact ih req' (by rw [hlen, hn])
  | @request n l r body hl hgood _ ih =>
    obtain ⟨req', hlen, hv⟩ := request_verdict hgood req (l.length + 2)
    rw [List.append_assoc, List.cons_append, List.cons_append,
      run_taken hl (fun h => by cases h) hv]
    exact ih req' (by rw [hlen, hn])

end Feipu
