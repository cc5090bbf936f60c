import LiveMarkup.Proofs.Template.Leads
import LiveMarkup.Proofs.Template.Tiles
import LiveMarkup.Proofs.Text.Utf8
import Mathlib.Data.List.Basic

/-!
# Where faults are reported

The scanner works on what is left of a fragment when an earlier quoted value has been closed in it,
and the place that it reports is a place in what is left. `Template.Reaches` says how the scan comes
to a placeholder and what has been taken from the fragment before it by then. A fault that is
reported there marks its culprit in the fragment once the place is moved behind what has been taken;
as it is reported it does so only when nothing has been taken (`error_marks_culprit`).
-/

namespace LiveMarkup

/-- The stretch shows the culprit: an attribute, from its name as written on, or nothing when there
is no attribute. A placeholder that is left open is no fault of fragments. -/
def TemplateFault.Shows (marked : Text) : TemplateFault → Prop
  | .unterminatedAttribute name => name <+: marked
  | .booleanAttributeExpressions name _ => '?' :: name <+: marked
  | .unboundTagExpression _ => marked = []
  | .unclosedPlaceholder => False

namespace TemplateError

/-- The place of the error is a stretch of `f` that ends where `f` ends and shows the culprit. -/
def Marks (e : TemplateError) (f : Text) : Prop :=
  ∃ marked, e.location.span.Holds f marked ∧ e.location.span.stop = Text.bytes f ∧
    e.fault.Shows marked

/-- The error with its place moved behind `taken`. -/
def behind (e : TemplateError) (taken : Text) : TemplateError :=
  { e with location.span := ⟨Text.bytes taken + e.location.span.start,
      Text.bytes taken + e.location.span.stop⟩ }

variable {e : TemplateError} {f taken : Text}

theorem Marks.behind (h : e.Marks f) (taken : Text) : (e.behind taken).Marks (taken ++ f) := by
  obtain ⟨marked, ⟨before, after, hsplit, hspan⟩, hstop, hfault⟩ := h
  refine ⟨marked, ⟨taken ++ before, after, ?_, ?_⟩, ?_, hfault⟩
  · rw [hsplit, List.append_assoc]
  · rw [TemplateError.behind, hspan, Text.bytes_append, Nat.add_assoc]
  · rw [Text.bytes_append, ← hstop]
    rfl

/-- What marks the culprit in the rest of a fragment marks it in the fragment only when the rest is
all of it. -/
theorem Marks.append_iff (h : e.Marks f) : e.Marks (taken ++ f) ↔ taken = [] := by
  constructor
  · rintro ⟨-, -, hstop, -⟩
    obtain ⟨-, -, hstop', -⟩ := h
    rw [hstop', Text.bytes_append] at hstop
    cases taken with
    | nil => rfl
    | cons c taken =>
      have hc := c.utf8Size_pos
      rw [Text.bytes_cons] at hstop
      omega
  · rintro rfl
    exact h

end TemplateError

namespace Template

/-! ## Where the scan stands -/

/-- The scan before a placeholder: `string` is what is left of the fragment before placeholder
`index` when an earlier value has taken `taken` of it, and `rest` are the fragments behind it. -/
structure Cursor where
  cx : ScanContext
  index : Nat
  taken : Text
  string : Text
  rest : List Text

/-- The scan of the fragments comes to the cursor. Only a quoted value takes something of a fragment
that comes later: of the one in which it is closed the piece that it ends with, and the quote. -/
inductive Reaches : List Text → Cursor → Prop
  | start {first rest} : Reaches (first :: rest) ⟨{}, 0, [], first, rest⟩
  | text {fragments cx index taken string next others}
      (h : Reaches fragments ⟨cx, index, taken, string, next :: others⟩)
      (hout : (cx.advance string).inTag = false) :
      Reaches fragments ⟨cx.advance string, index + 1, [], next, others⟩
  | unquoted {fragments cx index taken string next others a}
      (h : Reaches fragments ⟨cx, index, taken, string, next :: others⟩)
      (hin : (cx.advance string).inTag = true)
      (hfound : OpenAttribute.ofText? string = some a) (hquote : a.quote? = none) :
      Reaches fragments ⟨cx.advance string, index + 1, [], next, others⟩
  | quoted {fragments cx index taken string next others a q first skip inner piece after rest}
      (h : Reaches fragments ⟨cx, index, taken, string, next :: others⟩)
      (hin : (cx.advance string).inTag = true)
      (hfound : OpenAttribute.ofText? string = some a) (hquote : a.quote? = some (q, first))
      (htail : quoted? q (next :: others) = some (skip, inner ++ [piece], after, rest))
      (hone : (BindingKind.ofName a.name).1 = .boolean → skip = 0) :
      Reaches fragments ⟨cx.advance string, index + skip + 1, piece ++ [q], after, rest⟩

/-- The fragment in which a quoted value ends, and the fragments behind it. -/
theorem drop_of_quoted? {q : Char} {fs inner rest : List Text} {skip : Nat} {piece after : Text}
    (h : quoted? q fs = some (skip, inner ++ [piece], after, rest)) :
    fs.drop skip = (piece ++ q :: after) :: rest := by
  induction fs generalizing skip inner with
  | nil => cases h
  | cons f fs ih =>
    rw [quoted?] at h
    split at h
    · next hcut =>
      rw [Option.some.injEq, Prod.mk.injEq, Prod.mk.injEq, Prod.mk.injEq] at h
      obtain ⟨rfl, hpieces, rfl, rfl⟩ := h
      cases inner with
      | nil =>
        cases hpieces
        rw [List.drop_zero, Text.eq_append_of_cutAt? hcut]
      | cons p inner => simp at hpieces
    · rw [Option.map_eq_some_iff] at h
      obtain ⟨⟨skip', pieces, after', rest'⟩, hlater, heq⟩ := h
      rw [Prod.mk.injEq, Prod.mk.injEq, Prod.mk.injEq] at heq
      obtain ⟨rfl, hpieces, rfl, rfl⟩ := heq
      cases inner with
      | nil =>
        have hpos := pieces_pos hlater
        cases hpieces
        cases hpos
      | cons p inner =>
        obtain ⟨-, rfl⟩ := List.cons.inj hpieces
        exact ih hlater

/-- What has been taken and what is left are the fragment before the placeholder. -/
theorem Reaches.drop_eq {fragments : List Text} {c : Cursor} (h : Reaches fragments c) :
    fragments.drop c.index = (c.taken ++ c.string) :: c.rest := by
  induction h with
  | start => rfl
  | text _ _ ih | unquoted _ _ _ _ ih =>
    dsimp only at ih ⊢
    rw [← List.drop_drop, ih]
    rfl
  | quoted _ _ _ _ htail _ ih =>
    dsimp only at ih ⊢
    rw [Nat.add_assoc, Nat.add_comm _ 1, ← List.drop_drop, ← List.drop_drop, ih, List.append_assoc]
    exact drop_of_quoted? htail

theorem Reaches.getElem?_index {fragments : List Text} {c : Cursor} (h : Reaches fragments c) :
    fragments[c.index]? = some (c.taken ++ c.string) := by
  rw [← List.head?_drop, h.drop_eq]
  rfl

/-! ## Faults -/

theorem eq_error_of_bind {ε α β : Type} {x : Except ε α} {f : α → β} {e : ε}
    (h : (x >>= fun a => pure (f a)) = .error e) : x = .error e := by
  cases x with
  | error e' => cases h; rfl
  | ok a => cases h

/-- A boolean attribute is written with its mark before its name. -/
theorem cons_name_of_boolean {name : Text} (h : (BindingKind.ofName name).1 = .boolean) :
    '?' :: (BindingKind.ofName name).2 = name := by
  have hsigil := BindingKind.sigil_append_ofName name
  rw [h] at hsigil
  exact hsigil

/-- From the name of the attribute on, a text is a stretch that ends where the text ends. -/
theorem holds_of_ofText? {string : Text} {a : OpenAttribute}
    (h : OpenAttribute.ofText? string = some a) :
    Span.Holds ⟨Text.bytes a.before + 1, Text.bytes string⟩ string (a.name ++ a.suffix) := by
  obtain ⟨hstring, hspace, -⟩ := OpenAttribute.eq_append_of_ofText? h
  have hleading : a.leading.utf8Size = 1 := by
    simp only [Text.isSpace, Bool.or_eq_true, decide_eq_true_eq] at hspace
    rcases hspace with (((h | h) | h) | h) | h <;> rw [h] <;> rfl
  have hbefore : Text.bytes (a.before ++ [a.leading]) = Text.bytes a.before + 1 := by
    rw [Text.bytes_append, Text.bytes_cons, hleading]
    rfl
  refine ⟨a.before ++ [a.leading], [], ?_, ?_⟩
  · rw [List.append_nil, List.append_assoc]
    exact hstring
  · have hbytes : Text.bytes string =
        Text.bytes (a.before ++ [a.leading]) + Text.bytes (a.name ++ a.suffix) := by
      rw [← Text.bytes_append, List.append_assoc]
      exact congrArg Text.bytes hstring
    rw [hbytes, hbefore]

/-- A scan that fails comes to the placeholder at which it fails, and marks the culprit in what is
left of the fragment before it. -/
theorem exists_reaches_of_rowsFrom {cx : ScanContext} {index : Nat} {string : Text}
    {rest : List Text} {e : TemplateError} (h : rowsFrom cx index string rest = .error e)
    {fragments : List Text} {taken : Text}
    (hreach : Reaches fragments ⟨cx, index, taken, string, rest⟩) :
    ∃ c, Reaches fragments c ∧ e.location.fragment = c.index ∧ e.Marks c.string := by
  fun_induction rowsFrom cx index string rest generalizing taken
  case case1 => cases h
  case case2 string next others cx hin fail hfound =>
    cases h
    refine ⟨_, hreach, rfl, [], ⟨string, [], ?_, rfl⟩, rfl, rfl⟩
    rw [List.append_nil, List.append_nil]
  case case3 hin a hfound hquote ih =>
    exact ih (eq_error_of_bind h) (hreach.unquoted hin hfound hquote)
  case case4 hin fail a hfound q first hquote htail =>
    cases h
    exact ⟨_, hreach, rfl, _, holds_of_ofText? hfound, rfl, List.prefix_append _ _⟩
  case case5 hin fail a hfound q first hquote skip pieces after rest htail b hboolean =>
    cases h
    refine ⟨_, hreach, rfl, _, holds_of_ofText? hfound, rfl, ?_⟩
    rw [Bool.and_eq_true, decide_eq_true_eq] at hboolean
    have hname : '?' :: b.name = a.name := cons_name_of_boolean hboolean.1
    have hshown : '?' :: b.name <+: a.name ++ a.suffix := by
      rw [hname]
      exact List.prefix_append _ _
    exact hshown
  case case6 hin a hfound q first hquote skip pieces after rest htail b hboolean ih =>
    rcases List.eq_nil_or_concat' pieces with rfl | ⟨inner, piece, rfl⟩
    · exact absurd (pieces_pos htail) (Nat.lt_irrefl 0)
    · have hone : (BindingKind.ofName a.name).1 = .boolean → skip = 0 := by
        intro hkind
        by_contra hmany
        apply hboolean
        rw [Bool.and_eq_true]
        exact ⟨decide_eq_true hkind, decide_eq_true (Nat.pos_of_ne_zero hmany)⟩
      exact ih (eq_error_of_bind h) (hreach.quoted hin hfound hquote htail hone)
  case case7 hout ih =>
    exact ih (eq_error_of_bind h) (hreach.text (by simpa using hout))

/-- When fragments make no template, the fragment that is reported is there, and the culprit is
where the report says behind what an earlier quoted value has taken of the fragment. The report shows
the culprit in the fragment exactly when nothing has been taken. -/
theorem error_marks_culprit {fragments : List Text} {e : TemplateError}
    (h : ofFragments fragments = .error e) : ∃ c, Reaches fragments c ∧
      e.location.fragment = c.index ∧
      fragments[e.location.fragment]? = some (c.taken ++ c.string) ∧
      (e.behind c.taken).Marks (c.taken ++ c.string) ∧
      (e.Marks (c.taken ++ c.string) ↔ c.taken = []) := by
  cases fragments with
  | nil => cases h
  | cons first rest =>
    have hfails : rowsFrom {} 0 first rest = .error e := by
      rw [rowsFrom_eq, h]
      rfl
    obtain ⟨c, hreach, hindex, hmarks⟩ := exists_reaches_of_rowsFrom hfails .start
    refine ⟨c, hreach, hindex, ?_, hmarks.behind c.taken, hmarks.append_iff⟩
    rw [hindex]
    exact hreach.getElem?_index

/-- The second attribute has a quote that is not closed, behind the end of the value of the
first. -/
theorem error_marks_culprit_unterminated : ∃ c,
    Reaches ["<a b=\"".toList, "\" c=\"".toList, ">".toList] c ∧ 1 = c.index ∧
      some "\" c=\"".toList = some (c.taken ++ c.string) ∧
      TemplateError.Marks ⟨.unterminatedAttribute "c".toList, 1,
        ⟨Text.bytes c.taken + 1, Text.bytes c.taken + 4⟩⟩ (c.taken ++ c.string) ∧
      (TemplateError.Marks ⟨.unterminatedAttribute "c".toList, 1, ⟨1, 4⟩⟩ (c.taken ++ c.string) ↔
        c.taken = []) :=
  error_marks_culprit (e := ⟨.unterminatedAttribute "c".toList, 1, ⟨1, 4⟩⟩) (by decide +kernel)

/-- Behind the end of a quoted value the report is off by what the value has taken. -/
theorem not_error_marks_culprit : ¬∀ (fragments : List Text) (e : TemplateError),
    ofFragments fragments = .error e →
      ∃ f, fragments[e.location.fragment]? = some f ∧ e.Marks f := by
  intro h
  obtain ⟨f, hf, -, -, hstop, -⟩ :=
    h ["<a b=\"".toList, "\" c=\"".toList, ">".toList]
      ⟨.unterminatedAttribute "c".toList, 1, ⟨1, 4⟩⟩ (by decide +kernel)
  cases hf
  exact absurd hstop (by decide)

end Template

end LiveMarkup
