import JvmPatch.Proofs.Text.Words
import JvmPatch.Text.Quoted

/-! A string constant is read as the text that it was written for. -/

set_option autoImplicit false

namespace JvmPatch.Text

theorem unescape_escape (c : Char) (s : List Char) :
    unescape (escape c ++ s) = (unescape s).map (c :: ·) := by
  unfold escape
  split
  · subst_vars
    rfl
  split
  · subst_vars
    rfl
  split
  · subst_vars
    rfl
  split
  · subst_vars
    rfl
  split
  · subst_vars
    rfl
  · rename_i notBackslash _
    rw [List.singleton_append, unescape.eq_def]
    simp only [if_neg notBackslash]

theorem unescape_flatMap (s : List Char) : unescape (s.flatMap escape) = .ok s := by
  induction s with
  | nil => rfl
  | cons c s ih => rw [List.flatMap_cons, unescape_escape, ih]; rfl

theorem unquote_quote (s : List Char) : unquote (quote s) = .ok s := by
  have inner : unwrap? (quote s) = some (s.flatMap escape) := by
    simp [quote, unwrap?]
  rw [unquote, inner]
  exact unescape_flatMap s

theorem escape_isLine (c : Char) : IsLine (escape c) := by
  have none : IsLine [] := fun _ member => nomatch member
  have escaped {d : Char} (notFeed : d ≠ '\n') (notReturn : d ≠ '\r') : IsLine ['\\', d] :=
    .cons (none.cons notFeed notReturn) (by decide) (by decide)
  unfold escape
  split
  · exact escaped (by decide) (by decide)
  split
  · exact escaped (by decide) (by decide)
  split
  · exact escaped (by decide) (by decide)
  split
  · exact escaped (by decide) (by decide)
  split
  · exact escaped (by decide) (by decide)
  · rename_i notFeed notReturn _ _ _
    exact none.cons notFeed notReturn

/-- The escapes keep a string constant on one line. -/
theorem quote_isLine (s : List Char) : IsLine (quote s) := by
  have closing : IsLine ['\"'] := .cons (fun _ member => nomatch member) (by decide) (by decide)
  refine .cons (.append (fun c member => ?_) closing) (by decide) (by decide)
  obtain ⟨d, -, inside⟩ := List.mem_flatMap.1 member
  exact escape_isLine d c inside

theorem getLast?_quote (s : List Char) : (quote s).getLast? = some '\"' := by
  simp [quote, List.getLast?_cons]

theorem trim_quote (s : List Char) : trim (quote s) = quote s :=
  trim_indented (fun c head => by cases head; rfl)
    (fun c last => by cases (getLast?_quote s).symm.trans last; rfl) 0

end JvmPatch.Text
