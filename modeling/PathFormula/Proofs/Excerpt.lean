import Mathlib.Data.List.DropRight
import Mathlib.Order.Bounds.Basic
import PathFormula.Diagnostic
import PathFormula.Proofs.Blame

/-!
# Where a diagnostic points

The excerpt of a diagnostic is a whole line of the text, and the caret below it has as many
spaces in front of it as characters of the line stand in front of the fault.  An offset may
also lie inside a character or behind the text.  It then counts as the last one before it at
which the text can be cut, and everything else follows from this cut: what stands between the
line feed in front of it and the cut is the beginning of the line, and what stands between the
cut and the next line feed is the rest of the line.

## Main definitions

* `IsLine s before line after` — a line of a text, with what stands before it and after it.

## Main results

* `Place.exists_splitFrom`, `isGreatest_length` — characters are passed as far as they fit, and
  so up to the last boundary in reach.
* `isLine_of_split` — the line around a cut.
* `Diagnostic.render_of_offset` — **a diagnostic shows the right line and the right column.**
-/

namespace PathFormula

open Utf8

/-- The line is a whole line of the text, with the rest of the text before it and after it. -/
structure IsLine (s before line after : String) : Prop where
  text_eq : s = before ++ (line ++ after)
  not_mem : '\n' ∉ line.toList
  before_ends : before = "" ∨ ∃ text, before = text ++ "\n"
  after_begins : after = "" ∨ ∃ text, after = "\n" ++ text

variable {front back : List Char} {s : String} {k : Nat}

/-! ### The cut -/

/-- Characters are passed as long as they fit, and the first that does not fit stays. -/
theorem Place.exists_splitFrom (n : Nat) (passed rest : List Char) :
    ∃ front back, rest = front ++ back ∧ splitFrom n passed rest = (front.reverse ++ passed, back) ∧
      (encode front).length ≤ n ∧ ∀ c ∈ back.head?, n < (encode (front ++ [c])).length := by
  fun_induction splitFrom n passed rest with
  | case1 n passed => exact ⟨[], [], rfl, rfl, Nat.zero_le _, by simp⟩
  | case2 n passed c rest hc ih =>
    obtain ⟨front, back, rfl, heq, hle, hlt⟩ := ih
    refine ⟨c :: front, back, rfl, by simp [heq], ?_, fun d hd => ?_⟩
    · rw [encode_cons, List.length_append, String.length_utf8EncodeChar]
      omega
    · have hd := hlt d hd
      rw [List.cons_append, encode_cons, List.length_append, String.length_utf8EncodeChar]
      omega
  | case3 n passed c rest hc => exact ⟨[], c :: rest, rfl, rfl, Nat.zero_le _, by simpa using hc⟩

/-- What fits is all that can be cut off within `k` bytes, if not even one more character
fits. -/
theorem isGreatest_length (hs : s.toList = front ++ back) (hle : (encode front).length ≤ k)
    (hlt : ∀ c ∈ back.head?, k < (encode (front ++ [c])).length) :
    IsGreatest {o | IsBoundary s o ∧ o ≤ min k (bytes s).length} (encode front).length := by
  have hcut : IsBoundary s (encode front).length := by
    refine ⟨String.ofList front, String.ofList back, ?_, by rw [bytes_ofList]⟩
    rw [← String.ofList_append, ← hs, String.ofList_toList]
  refine ⟨⟨hcut, Nat.le_min.mpr ⟨hle, hcut.le⟩⟩, ?_⟩
  rintro o ⟨⟨front', back', rfl, rfl⟩, hle'⟩
  have hlek : (bytes front').length ≤ k := (Nat.le_min.mp hle').1
  rw [String.toList_append] at hs
  rcases List.append_eq_append_iff.mp hs with ⟨more, rfl, -⟩ | ⟨more, hfront', rfl⟩
  · rw [encode_append, List.length_append]
    exact Nat.le_add_right _ _
  · rw [bytes, hfront'] at hlek ⊢
    cases more with
    | nil => rw [List.append_nil]
    | cons c more =>
      have hc := hlt c rfl
      rw [encode_append, encode_cons, ← List.append_assoc, List.length_append] at hlek
      rw [encode_append, encode_cons, encode_nil, List.append_nil] at hc
      omega

/-! ### The line around it -/

/-- A text goes on to its end without a line feed, or comes to one. -/
theorem dropWhile_eq_nil_or (cs : List Char) : cs.dropWhile (· != '\n') = [] ∨
    ∃ text, cs.dropWhile (· != '\n') = '\n' :: text := by
  have hhead := List.head?_dropWhile_not (· != '\n') cs
  cases hdrop : cs.dropWhile (· != '\n') with
  | nil => exact .inl rfl
  | cons c text =>
    rw [hdrop] at hhead
    obtain rfl : c = '\n' := by simpa using hhead
    exact .inr ⟨text, rfl⟩

/-- The line around a cut begins behind the last line feed in front of it, and ends in front of
the first one behind it. -/
theorem isLine_of_split (hs : s.toList = front ++ back) :
    IsLine s (String.ofList (front.rdropWhile (· != '\n')))
      (Place.line ⟨front.rtakeWhile (· != '\n'), back.takeWhile (· != '\n')⟩)
      (String.ofList (back.dropWhile (· != '\n'))) where
  text_eq := by
    rw [Place.line, ← String.ofList_append, ← String.ofList_append, List.append_assoc,
      List.takeWhile_append_dropWhile, ← List.append_assoc, List.rdropWhile_append_rtakeWhile,
      ← hs, String.ofList_toList]
  not_mem := by
    rw [Place.line, String.toList_ofList, List.mem_append]
    rintro (h | h)
    · simpa using List.mem_rtakeWhile_imp h
    · simpa using List.mem_takeWhile_imp h
  before_ends := by
    rw [List.rdropWhile]
    rcases dropWhile_eq_nil_or front.reverse with hdrop | ⟨text, hdrop⟩
    · exact .inl (by rw [hdrop]; rfl)
    · refine .inr ⟨String.ofList text.reverse, ?_⟩
      rw [hdrop, List.reverse_cons, String.ofList_append]
  after_begins := by
    rcases dropWhile_eq_nil_or back with hdrop | ⟨text, hdrop⟩
    · exact .inl (by rw [hdrop])
    · refine .inr ⟨String.ofList text, ?_⟩
      rw [hdrop, ← List.singleton_append, String.ofList_append]

/-- The place of an offset is the one around the last boundary in its reach. -/
theorem Place.exists_locate (s : String) (k : Nat) : ∃ front back, s.toList = front ++ back ∧
    IsGreatest {o | IsBoundary s o ∧ o ≤ min k (bytes s).length} (encode front).length ∧
    locate s k = ⟨front.rtakeWhile (· != '\n'), back.takeWhile (· != '\n')⟩ := by
  obtain ⟨front, back, hs, heq, hle, hlt⟩ := exists_splitFrom k [] s.toList
  refine ⟨front, back, hs, isGreatest_length hs hle hlt, ?_⟩
  rw [locate, heq, List.append_nil]
  rfl

/-- **A diagnostic shows the right line and the right column.**

The offset of the fault counts as the last boundary of the text up to it.  The line that is shown
is the whole line around this boundary, and as many spaces stand in front of the caret as
characters of the line in front of the boundary. -/
theorem Diagnostic.render_of_offset (s : String) {fault : Fault} (h : fault.offset? = some k) :
    ∃ o before line after column,
      IsGreatest {o | IsBoundary s o ∧ o ≤ min k (bytes s).length} o ∧
      IsLine s before line after ∧ column ≤ line.length ∧
      (bytes before).length + (encode (line.toList.take column)).length = o ∧
      render false s fault = "error: " ++ fault.message ++ "\n" ++
        ("  " ++ line ++ "\n") ++
        ("  " ++ String.ofList (List.replicate column ' ') ++ "^\n") := by
  obtain ⟨front, back, hs, hgreatest, hlocate⟩ := Place.exists_locate s k
  refine ⟨_, _, _, _, (front.rtakeWhile (· != '\n')).length, hgreatest, isLine_of_split hs,
    ?_, ?_, ?_⟩
  · simp [Place.line]
  · have hcut : (Place.line ⟨front.rtakeWhile (· != '\n'), back.takeWhile (· != '\n')⟩).toList.take
        (front.rtakeWhile (· != '\n')).length = front.rtakeWhile (· != '\n') := by
      rw [Place.line, String.toList_ofList, List.take_left]
    rw [hcut, bytes_ofList, ← List.length_append, ← encode_append,
      List.rdropWhile_append_rtakeWhile]
  · have herror : "error:" ++ " " = "error: " := rfl
    have hcaret : "^" ++ "\n" = "^\n" := rfl
    rw [render, h]
    simp only [headline, excerpt, Style.paint, hlocate, Place.column, ← herror, ← hcaret,
      String.append_assoc, Bool.false_eq_true, if_false]

/-- An offset inside the second character of the second line. -/
theorem Diagnostic.render_of_offset_inside_character :
    (Fault.endOfInput 6).offset? = some 6 ∧
      ∃ before line after column, IsLine "a\né😀b\nc" before line after ∧ column ≤ line.length ∧
        (bytes before).length + (encode (line.toList.take column)).length = 4 ∧
        render false "a\né😀b\nc" (.endOfInput 6) =
          "error: " ++ (Fault.endOfInput 6).message ++ "\n" ++ ("  " ++ line ++ "\n") ++
          ("  " ++ String.ofList (List.replicate column ' ') ++ "^\n") := by
  have hoffset : (Fault.endOfInput 6).offset? = some 6 := rfl
  have hcut : IsGreatest {o | IsBoundary "a\né😀b\nc" o ∧ o ≤ min 6 (bytes "a\né😀b\nc").length}
      (encode ['a', '\n', 'é']).length :=
    @isGreatest_length ['a', '\n', 'é'] ['😀', 'b', '\n', 'c'] _ 6 rfl (by decide)
      (by rintro c ⟨⟩; decide)
  obtain ⟨o, before, line, after, column, hgreatest, hline, hcolumn, ho, hrender⟩ :=
    render_of_offset "a\né😀b\nc" hoffset
  rw [hgreatest.unique hcut] at ho
  exact ⟨hoffset, before, line, after, column, hline, hcolumn, ho, hrender⟩

example : Diagnostic.render false "a\né😀b\nc" (.endOfInput 6) =
    "error: unexpected end of input at offset 6\n  é😀b\n   ^\n" := by decide +kernel

end PathFormula
