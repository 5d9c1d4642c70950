import PathFormula.TokenList

/-!
# Slices of a token list

A list is cut at the tokens that are equal to the separator, and a token that only has the text
of the separator in it is never cut.  A segment is what stands between one separator and the
next; it is empty where two separators are neighbours, or where one stands at an end of the
list.  The slices are the segments, each put together to one text, so they take turns with the
separators, and nothing of the list is lost.

## Main definitions

* `IsSegment separator tokens k segment` — what stands behind the first `k` separators, up to
  the next one.

## Main results

* `getElem?_splitOn_iff` — what a list is split into are its segments.
* `slice_eq` — the slices are the segments, each put together.
* `slice_faithful` — **slicing neither loses nor adds anything.**
-/

namespace PathFormula.TokenList

variable {separator : String} {tokens before segment : List String} {k : Nat}

/-- The segment stands behind `k` separators, directly behind the last of them, and reaches up
to the next one.  The ends of the list count as separators. -/
inductive IsSegment (separator : String) (tokens : List String) : Nat → List String → Prop
  | intro {front segment back : List String} (htokens : tokens = front ++ (segment ++ back))
    (hfront : front = [] ∨ [separator] <:+ front) (hback : back = [] ∨ [separator] <+: back)
    (hsegment : separator ∉ segment) :
    IsSegment separator tokens (front.count separator) segment

/-! ### Segments -/

/-- A list is split into one part more than it has separators. -/
theorem length_splitOn (separator : String) (tokens : List String) :
    (tokens.splitOn separator).length = tokens.count separator + 1 := by
  induction tokens with
  | nil => simp
  | cons t ts ih =>
    rw [List.splitOn_cons_eq_if_modifyHead, List.count_cons]
    split <;> simp [ih]

/-- What stands in front of the first separator is the first segment. -/
theorem IsSegment.first (hbefore : separator ∉ before) (after : List String) :
    IsSegment separator (before ++ separator :: after) 0 before :=
  @IsSegment.intro _ _ [] before (separator :: after) rfl (.inl rfl) (.inr ⟨after, rfl⟩) hbefore

/-- A list without separators is the only segment of itself. -/
theorem IsSegment.whole (htokens : separator ∉ tokens) : IsSegment separator tokens 0 tokens :=
  @IsSegment.intro _ _ [] tokens [] (by simp) (.inl rfl) (.inl rfl) htokens

/-- Behind the first separator the segments are those of what follows. -/
theorem IsSegment.behind (h : IsSegment separator tokens k segment)
    (hbefore : separator ∉ before) :
    IsSegment separator (before ++ separator :: tokens) (k + 1) segment := by
  obtain @⟨front, _, back, rfl, hfront, hback, hsegment⟩ := h
  have hcount : (before ++ separator :: front).count separator = front.count separator + 1 := by
    rw [List.count_append, List.count_eq_zero_of_not_mem hbefore, List.count_cons_self,
      Nat.zero_add]
  rw [← hcount]
  refine .intro (by simp) (.inr ?_) hback hsegment
  rcases hfront with rfl | ⟨init, rfl⟩
  · exact ⟨before, rfl⟩
  · exact ⟨before ++ separator :: init, by simp⟩

/-- What a list is split into are its segments. -/
theorem getElem?_splitOn_iff :
    (tokens.splitOn separator)[k]? = some segment ↔ IsSegment separator tokens k segment := by
  constructor
  · intro h
    -- the first separator is taken off, with what stands in front of it
    induction k generalizing tokens with
    | zero =>
      by_cases hmem : separator ∈ tokens
      · obtain ⟨before, after, rfl, hbefore⟩ := List.eq_append_cons_of_mem hmem
        rw [List.splitOn_append_cons_self_of_not_mem hbefore] at h
        cases h
        exact .first hbefore after
      · rw [List.splitOn_eq_singleton hmem] at h
        cases h
        exact .whole hmem
    | succ k ih =>
      by_cases hmem : separator ∈ tokens
      · obtain ⟨before, after, rfl, hbefore⟩ := List.eq_append_cons_of_mem hmem
        rw [List.splitOn_append_cons_self_of_not_mem hbefore, List.getElem?_cons_succ] at h
        exact (ih h).behind hbefore
      · rw [List.splitOn_eq_singleton hmem] at h
        cases h
  · rintro @⟨front, _, back, rfl, hfront, hback, hsegment⟩
    have hhead : ((segment ++ back).splitOn separator)[0]? = some segment := by
      rcases hback with rfl | ⟨rest, rfl⟩
      · rw [List.append_nil, List.splitOn_eq_singleton hsegment]
        rfl
      · rw [List.singleton_append, List.splitOn_append_cons_self_of_not_mem hsegment]
        rfl
    rcases hfront with rfl | ⟨init, rfl⟩
    · exact hhead
    · have hcount : (init ++ [separator]).count separator = (init.splitOn separator).length := by
        rw [length_splitOn, List.count_append, List.count_singleton_self]
      rw [List.append_assoc, List.singleton_append, List.splitOn_append_cons_self, hcount,
        List.getElem?_append_right (Nat.le_refl _), Nat.sub_self, hhead]

/-! ### Slices -/

/-- The segment that is being cut goes on with the first part of the rest. -/
theorem sliceFrom_eq (separator : String) (segment segments tokens : List String) :
    sliceFrom separator segment segments tokens =
      segments.reverse ++ (List.splitOnPPrepend (· == separator) tokens segment).map concat := by
  fun_induction sliceFrom separator segment segments tokens with
  | case1 segment segments => simp
  | case2 segment segments ts ih => simp [ih, List.splitOnPPrepend_cons_eq_if]
  | case3 segment segments t ts ht ih => simp [ih, List.splitOnPPrepend_cons_eq_if, ht]

/-- The slices are the segments, each put together. -/
theorem slice_eq (ts : TokenList) (separator : String) :
    ts.slice separator = (ts.tokens.splitOn separator).map String.join := by
  rw [slice, sliceFrom_eq, List.splitOnPPrepend_nil_right]
  rfl

/-- Texts can be put together segment by segment, with the separator in between. -/
theorem intercalate_map_join (separator : String) (segments : List (List String)) :
    separator.intercalate (segments.map String.join) =
      String.join ([separator].intercalate segments) := by
  induction segments with
  | nil => simp
  | cons segment rest ih =>
    cases rest with
    | nil => simp
    | cons next rest =>
      rw [List.map_cons, List.map_cons, String.intercalate_cons_cons, ← List.map_cons, ih,
        List.intercalate_cons_cons, String.join_append, String.join_append, String.join_cons,
        String.join_nil, String.append_empty]

/-- **Slicing neither loses nor adds anything.**

There is one slice more than there are separators.  Each is the text of what stands between a
separator and the next one, and with the separators in between they are the text of the whole
list.  There is more than one of them exactly if the list has a separator. -/
theorem slice_faithful (ts : TokenList) (separator : String) :
    (ts.slice separator).length = ts.count separator + 1 ∧
      (∀ k s, (ts.slice separator)[k]? = some s ↔
        ∃ segment, IsSegment separator ts.tokens k segment ∧ String.join segment = s) ∧
      separator.intercalate (ts.slice separator) = String.join ts.tokens ∧
      (ts.contains separator ↔ 1 < (ts.slice separator).length) := by
  have hlength : (ts.slice separator).length = ts.count separator + 1 := by
    rw [slice_eq, List.length_map, length_splitOn, count]
  refine ⟨hlength, fun k s => ?_, ?_, ?_⟩
  · rw [slice_eq, List.getElem?_map, Option.map_eq_some_iff]
    simp only [getElem?_splitOn_iff]
  · rw [slice_eq, intercalate_map_join, List.intercalate_splitOn]
  · rw [hlength, contains, List.contains_iff_mem, count, Nat.lt_add_left_iff_pos,
      List.count_pos_iff]

example : slice ⟨["a", "b,", ",", ",", "c"]⟩ "," = ["ab,", "", "c"] := by decide

end PathFormula.TokenList
