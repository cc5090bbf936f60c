import LiveMarkup.Proofs.Markup.Written
import LiveMarkup.Proofs.Template.Scanning

/-!
# Positions of the template scanner

Where the scanner stands in a fragment: in a text, in a comment or in an open tag. `Stands` says so
of the fragment and of what is left of it, and there is one lemma for each thing that may be written
next. Besides, a property `P` is kept of all names that the scanner could give to the part behind
the fragment; `NamesIn` asks it of the names that a static text mentions.
-/

namespace LiveMarkup

namespace Delimiter

variable {P : Text → Prop} {name : Option Text} {last : Delimiter} {comment : Bool}
  {s r tag : Text}

/-- Whether the scanner is in a tag behind the delimiter. -/
def inTag (before : Bool) : Delimiter → Bool
  | .none => before
  | .opened _ => true
  | .closed _ => false

/-- The tag that is known behind the delimiter. -/
def tagBehind (before : Text) : Delimiter → Text
  | .none => before
  | .opened tag => tag
  | .closed tag => tag.getD before

/-- No comment is open behind the text. -/
def Uncommented (s : Text) : Prop := (scan .none .none false s).1 = false

instance (s : Text) : Decidable (Uncommented s) := inferInstanceAs (Decidable (_ = _))

/-- The scanner is in a tag behind the text, when it was or was not before. -/
def endsInTag (before : Bool) (s : Text) : Bool := (scan .none .none false s).2.inTag before

/-- Neither a comment nor a tag is open behind the text, when none was before. -/
def Settled (s : Text) : Prop := Uncommented s ∧ endsInTag false s = false

instance (s : Text) : Decidable (Settled s) := inferInstanceAs (Decidable (_ ∧ _))

/-! ## Names -/

/-- The tag name behind every `<` in `s` has the property, whatever follows `s` that does not go on
with a letter or digit. -/
def NamesIn (P : Text → Prop) (s : Text) : Prop :=
  ∀ before behind r, s = before ++ '<' :: behind → Text.Stops Text.isAlphanum r →
    P (tagName (behind ++ r))

theorem NamesIn.tail {c : Char} (h : NamesIn P (c :: s)) : NamesIn P s := by
  intro before behind r hs
  exact h (c :: before) behind r (congrArg (c :: ·) hs)

theorem NamesIn.head (h : NamesIn P ('<' :: s)) (hr : Text.Stops Text.isAlphanum r) :
    P (tagName (s ++ r)) :=
  h [] s r rfl hr

theorem NamesIn.head_self (h : NamesIn P ('<' :: s)) : P (tagName s) := by
  simpa using h.head Text.stops_nil

theorem namesIn_of_not_mem (h : '<' ∉ s) : NamesIn P s := by
  rintro before behind r rfl
  simp at h

/-- A `<` of the text is followed by the name of a script or style element. -/
def namesRaw : Text → Bool
  | [] => false
  | c :: t => (c = '<' && Node.isRawTextName (tagName t)) || namesRaw t

theorem not_raw_of_not_namesRaw {before behind : Text}
    (h : namesRaw (before ++ '<' :: behind) = false) :
    Node.isRawTextName (tagName behind) = false := by
  induction before with
  | nil => simpa using (Bool.or_eq_false_iff.mp h).1
  | cons c before ih => exact ih (Bool.or_eq_false_iff.mp h).2

theorem isAlpha_of_isRawTextName {name : Text} (h : Node.isRawTextName name = true) :
    ∀ c ∈ name, c.isAlpha = true := by
  have hlower : ∀ c ∈ Text.lower name, c.isAlpha = true := by
    rcases Node.isRawTextName_iff.mp h with h | h <;> rw [h] <;> exact List.all_eq_true.mp rfl
  exact fun c hc => Text.isAlpha_of_toLower (hlower _ (List.mem_map_of_mem hc))

/-- When a static text names no script or style element, values in elements of its names become
entities: what goes on with no letter makes no such name of another. -/
theorem namesIn_plainTag (h : namesRaw s = false) : NamesIn PlainTag s := by
  rintro before behind r rfl hr
  have hself := not_raw_of_not_namesRaw h
  refine plainTag_of_not_raw (Bool.eq_false_iff.mpr fun hraw => ?_)
  have hsplit : tagName (behind ++ r) = if (tagName behind).length = behind.length
      then behind ++ tagName r else tagName behind := List.takeWhile_append
  rw [hsplit] at hraw
  split at hraw
  · next hlength =>
    have hwhole : tagName behind = behind := (List.takeWhile_prefix _).eq_of_length hlength
    have hnext : tagName r = [] := by
      cases r with
      | nil => rfl
      | cons c r =>
        refine List.takeWhile_cons_of_neg fun hc => ?_
        have hmem : c ∈ tagName (c :: r) := by
          rw [tagName, List.takeWhile_cons_of_pos hc]
          exact List.mem_cons_self
        have halpha := isAlpha_of_isRawTextName hraw c (List.mem_append_right _ hmem)
        have hstop := Text.stops_cons.mp hr
        rw [Text.isAlphanum, halpha] at hstop
        contradiction
    rw [hnext, List.append_nil, ← hwhole, hself] at hraw
    contradiction
  · rw [hself] at hraw
    contradiction

/-- A tag name ends before a `>`. -/
theorem tagName_append (h : '>' ∈ s) (r : Text) : tagName (s ++ r) = tagName s := by
  obtain ⟨s, t, rfl⟩ := List.append_of_mem h
  rw [List.append_assoc, List.cons_append, tagName, tagName, List.takeWhile_append,
    List.takeWhile_append]
  split <;> rfl

/-! ## Steps of the scan -/

/-- A character that could make more of a `<` before it. -/
def isMarkChar (c : Char) : Bool := Text.isAlphanum c || c = '!' || c = '-'

theorem stops_isAlphanum (h : Text.Stops isMarkChar r) : Text.Stops Text.isAlphanum r := by
  intro c hc
  have hmark := h c hc
  simp only [isMarkChar, Bool.or_eq_false_iff] at hmark
  exact hmark.1.1

/-- A `<` that begins no comment begins a tag. -/
theorem scan_bracket (h : ¬Token.commentOpen <+: '<' :: s) :
    scan name last false ('<' :: s) = scan (some (tagName s)) (.opened (tagName s)) false s := by
  rw [scan]
  rintro s' rfl
  exact h ⟨s', rfl⟩

theorem scan_other {c : Char} (hopen : c ≠ '<') (hclose : c ≠ '>') :
    scan name last false (c :: s) = scan name last false s := by
  rw [scan] <;> simp_all

theorem scan_inComment {c : Char} (hopen : c ≠ '<') (h : ¬Token.commentClose <+: c :: s) :
    scan name last true (c :: s) = scan name last true s := by
  rw [scan]
  · exact fun _ hfalse => Bool.noConfusion hfalse
  · exact fun hfalse => Bool.noConfusion hfalse
  · exact fun hfalse => Bool.noConfusion hfalse
  · rintro s' - rfl rfl
    exact h ⟨s', rfl⟩
  · exact fun _ => hopen

/-- No comment begins between a text and what follows it. -/
theorem not_prefix_commentOpen (h : ¬Token.commentOpen <+: '<' :: s)
    (hr : '>' ∈ s ∨ Text.Stops isMarkChar r) : ¬Token.commentOpen <+: '<' :: (s ++ r) := by
  intro hpre
  refine h ?_
  rcases hr with hs | hr
  · obtain ⟨s, t, rfl⟩ := List.append_of_mem hs
    rw [List.append_assoc, ← List.cons_append] at hpre
    rw [← List.cons_append]
    exact (Text.prefix_of_prefix_append_cons (by decide) hpre).trans (List.prefix_append _ _)
  · rw [Token.commentOpen, List.cons_prefix_cons] at hpre ⊢
    refine ⟨rfl, ?_⟩
    cases r with
    | nil => simpa using hpre.2
    | cons c r =>
      have hc := Text.stops_cons.mp hr
      simp only [isMarkChar, Bool.or_eq_false_iff, decide_eq_false_iff_not] at hc
      exact Text.prefix_of_prefix_append_cons (by simp [hc.1.2, hc.2]) hpre.2

/-- What follows begins no end of a comment with what stands before it. -/
def KeepsComment (r : Text) : Prop := r = [] ∨ Token.commentClose <+: r

theorem KeepsComment.stops (h : KeepsComment r) : Text.Stops Text.isAlphanum r := by
  rcases h with rfl | ⟨r, rfl⟩
  · exact Text.stops_nil
  · exact Text.stops_cons.mpr rfl

/-- No comment ends between a text and what follows it. -/
theorem not_prefix_commentClose {c : Char} (h : ¬Token.commentClose <+: c :: s)
    (hr : '>' ∈ s ∨ KeepsComment r) : ¬Token.commentClose <+: c :: (s ++ r) := by
  intro hpre
  rcases s with _ | ⟨d, _ | ⟨e, s⟩⟩
  · rcases hr with hs | rfl | ⟨r, rfl⟩
    · cases hs
    · exact h (by simpa using hpre)
    · simp [Token.commentClose] at hpre
  · rcases hr with hs | rfl | ⟨r, rfl⟩
    · obtain rfl : d = '>' := by simpa [eq_comm] using hs
      simp [Token.commentClose] at hpre
    · exact h (by simpa using hpre)
    · simp [Token.commentClose] at hpre
  · refine h ?_
    simpa only [Token.commentClose, List.cons_append, List.cons_prefix_cons, List.nil_prefix]
      using hpre

/-! ## Stretches of the scan -/

/-- Without a `>` the scanner stays in a tag. -/
theorem inTag_scan (hs : '>' ∉ s) {before : Bool} (h : last.inTag before = true) :
    (scan name last comment s).2.inTag before = true := by
  fun_induction scan name last comment s <;> simp_all [inTag]

/-- Without a `>` the scanner stays in a comment. -/
theorem scan_true (hs : '>' ∉ s) : (scan name last true s).1 = true := by
  generalize hc : true = comment
  rw [eq_comm] at hc
  fun_induction scan name last comment s <;> simp_all

/-- A stretch that does not end in a comment is scanned by itself: what follows makes no more of its
last `<`, or a `>` comes before. Only the names depend on what was scanned before; the rest is told
by a scan that starts with as much in a tag. -/
theorem exists_scan {name₀ : Option Text} {last₀ : Delimiter} {b b₀ : Bool} (hnames : NamesIn P s)
    (hstart : last.inTag b = last₀.inTag b₀) (hend : (scan name₀ last₀ comment s).1 = false)
    (hr : Text.Stops isMarkChar r ∨ (scan name₀ last₀ comment s).2.inTag b₀ = false)
    (hname : P (name.getD tag)) (hlast : P (last.tagBehind tag)) :
    ∃ name' last', P (name'.getD tag) ∧ P (last'.tagBehind tag) ∧
      last'.inTag b = (scan name₀ last₀ comment s).2.inTag b₀ ∧
      scan name last comment (s ++ r) = scan name' last' false r := by
  fun_induction scan name₀ last₀ comment s generalizing name last with
  | case1 name₀ last₀ comment =>
    subst hend
    exact ⟨name, last, hname, hlast, hstart, rfl⟩
  | case2 name₀ last₀ t ih =>
    have hnil : P [] := hnames.head_self
    exact ih hnames.tail.tail.tail.tail hstart hend hr hnil hlast
  | case3 name₀ last₀ t h ih =>
    have hopen : ¬Token.commentOpen <+: '<' :: t := by
      rintro ⟨t', ht'⟩
      exact h t' (List.cons.inj ht').2.symm
    have hparts : '>' ∈ t ∨ Text.Stops isMarkChar r := by
      refine hr.symm.imp_left fun hclosed => Classical.byContradiction fun hmem => ?_
      rw [inTag_scan hmem rfl] at hclosed
      contradiction
    have hnew : P (tagName (t ++ r)) := by
      rcases hparts with hmem | hr
      · rw [tagName_append hmem]
        exact hnames.head_self
      · exact hnames.head (stops_isAlphanum hr)
    rw [List.cons_append, scan_bracket (not_prefix_commentOpen hopen hparts)]
    exact ih hnames.tail rfl hend hr hnew hnew
  | case4 name₀ last₀ t ih =>
    rw [List.cons_append, scan_close]
    exact ih hnames.tail rfl hend hr hname hname
  | case5 name₀ last₀ t ih => exact ih hnames.tail.tail.tail rfl hend hr hname hname
  | case6 name₀ last₀ t ih =>
    have hmem : '>' ∈ t := Classical.byContradiction fun hmem => by
      rw [scan_true hmem] at hend
      contradiction
    have hnew : P (tagName (t ++ r)) := by
      rw [tagName_append hmem]
      exact hnames.head_self
    have hstep : scan name last true ('<' :: (t ++ r)) =
        scan (some (tagName (t ++ r))) last true (t ++ r) := by
      rw [scan]
    rw [List.cons_append, hstep]
    exact ih hnames.tail hstart hend hr hnew hlast
  | case7 name₀ last₀ comment c t _ hopen hclose hend' hopen' ih =>
    have hstep : scan name last comment (c :: (t ++ r)) = scan name last comment (t ++ r) := by
      cases comment with
      | false => exact scan_other (hopen rfl) (hclose rfl)
      | true =>
        have hmem : '>' ∈ t := Classical.byContradiction fun hmem => by
          rw [scan_true hmem] at hend
          contradiction
        refine scan_inComment (hopen' rfl) (not_prefix_commentClose ?_ (.inl hmem))
        rintro ⟨t', ht'⟩
        exact hend' t' rfl (List.cons.inj ht').1.symm (List.cons.inj ht').2.symm
    rw [List.cons_append, hstep]
    exact ih hnames.tail hstart hend hr hname hlast

/-- In a comment only the name behind the last `<` is noted. -/
theorem exists_scan_comment (hnames : NamesIn P s) (hclose : ¬Token.commentClose <:+: s)
    (hr : KeepsComment r) (hname : P (name.getD tag)) :
    ∃ name', P (name'.getD tag) ∧ scan name last true (s ++ r) = scan name' last true r := by
  induction s generalizing name with
  | nil => exact ⟨name, hname, rfl⟩
  | cons c s ih =>
    have hrest : ¬Token.commentClose <:+: s := fun h => hclose (List.infix_cons h)
    have hpre : ¬Token.commentClose <+: c :: (s ++ r) :=
      not_prefix_commentClose (fun h => hclose h.isInfix) (.inr hr)
    by_cases hopen : c = '<'
    · subst hopen
      have hnew : P ((some (tagName (s ++ r))).getD tag) := hnames.head hr.stops
      obtain ⟨name', hname', hscan⟩ := ih hnames.tail hrest hnew
      refine ⟨name', hname', ?_⟩
      rw [List.cons_append, scan, hscan]
    · obtain ⟨name', hname', hscan⟩ := ih hnames.tail hrest hname
      refine ⟨name', hname', ?_⟩
      rw [List.cons_append, scan_inComment hopen hpre, hscan]

/-- Text up to the next `<` opens no comment and no tag. -/
theorem settled_of_not_mem (hs : '<' ∉ s) : Settled s := by
  have hscan : ∀ comment name (last : Delimiter), comment = false → last.inTag false = false →
      (scan name last comment s).1 = false ∧ (scan name last comment s).2.inTag false = false := by
    intro comment name last hcomment hlast
    fun_induction scan name last comment s <;> simp_all [inTag]
  exact hscan false .none .none rfl rfl

end Delimiter

/-! ## Positions -/

/-- Where the scanner can stand. -/
inductive Position where
  | text
  | comment
  | tag
  deriving DecidableEq, Repr

namespace Position

/-- In a tag or in a text. -/
def ofTag (inTag : Bool) : Position := if inTag then .tag else .text

@[simp] theorem decide_ofTag_comment (b : Bool) : decide (ofTag b = .comment) = false := by
  cases b <;> rfl

/-- The context at the start of a fragment that begins there. -/
def context (p : Position) (tag : Text) : ScanContext := ⟨p = .tag, p = .comment, tag⟩

end Position

namespace ScanContext

open Delimiter (NamesIn Uncommented endsInTag isMarkChar)
open Position (decide_ofTag_comment)

variable {P : Text → Prop} {p : Position} {cx : ScanContext} {string r s : Text} {b : Bool}

/-- The scan of `string` stands at `p` before `r`, with names of the property. -/
def Stands (P : Text → Prop) (p : Position) (cx : ScanContext) (string r : Text) : Prop :=
  ∃ name last, P (name.getD cx.tag) ∧ P (last.tagBehind cx.tag) ∧
    (p = .comment ∨ last.inTag cx.inTag = decide (p = .tag)) ∧
    Delimiter.scan none .none cx.inComment string = Delimiter.scan name last (p = .comment) r

/-- The scan of `string` is not in a comment before `r`. -/
def Passes (cx : ScanContext) (string r : Text) : Prop :=
  ∃ name last, Delimiter.scan none .none cx.inComment string = Delimiter.scan name last false r

theorem stands_start {tag : Text} (h : P tag) (p : Position) (s : Text) :
    Stands P p (p.context tag) s s :=
  ⟨none, .none, h, h, .inr rfl, rfl⟩

/-- At the end of a fragment the position is the context of the next. -/
theorem Stands.advance (h : Stands P p cx string []) :
    ∃ tag, P tag ∧ cx.advance string = p.context tag := by
  obtain ⟨name, last, -, hlast, hp, hscan⟩ := h
  refine ⟨last.tagBehind cx.tag, hlast, ?_⟩
  rw [Delimiter.scan] at hscan
  rw [ScanContext.advance, hscan]
  cases p <;> cases last <;> simp_all [Position.context, Delimiter.inTag, Delimiter.tagBehind]

theorem Stands.passes (h : Stands P (.ofTag b) cx string r) : Passes cx string r := by
  obtain ⟨name, last, -, -, -, hscan⟩ := h
  refine ⟨name, last, ?_⟩
  cases b <;> exact hscan

/-! ## What is written next -/

/-- A stretch that opens no comment leads to a tag or to a text. -/
theorem Stands.skip (h : Stands P (.ofTag b) cx string (s ++ r)) (hnames : NamesIn P s)
    (hs : Uncommented s) (hr : Text.Stops isMarkChar r ∨ endsInTag b s = false) :
    Stands P (.ofTag (endsInTag b s)) cx string r := by
  obtain ⟨name, last, hname, hlast, hp, hscan⟩ := h
  have hstart : last.inTag cx.inTag = Delimiter.none.inTag b := by
    cases b <;> exact hp.resolve_left nofun
  obtain ⟨name', last', hname', hlast', hend, hstep⟩ :=
    Delimiter.exists_scan hnames hstart hs hr hname hlast
  refine ⟨name', last', hname', hlast', .inr ?_, ?_⟩
  · rw [hend]
    change endsInTag b s = _
    cases endsInTag b s <;> rfl
  · rw [decide_ofTag_comment] at hscan ⊢
    exact hscan.trans hstep

/-- A settled text leads to a text. -/
theorem Stands.text (h : Stands P .text cx string (s ++ r)) (hnames : NamesIn P s)
    (hs : Delimiter.Settled s) : Stands P .text cx string r := by
  have hstep := Stands.skip (b := false) h hnames hs.1 (.inr hs.2)
  rwa [hs.2] at hstep

/-- Without a `>` a stretch of a tag leads on in the tag. -/
theorem Stands.inside (h : Stands P .tag cx string (s ++ r)) (hnames : NamesIn P s)
    (hs : Uncommented s) (hclose : '>' ∉ s) (hr : Text.Stops isMarkChar r) :
    Stands P .tag cx string r := by
  have hstep := Stands.skip (b := true) h hnames hs (.inl hr)
  rwa [endsInTag, Delimiter.inTag_scan hclose rfl] at hstep

/-- The beginning of an open tag, whatever was known before. -/
theorem Passes.openTag (h : Passes cx string (('<' :: s) ++ r))
    (hstart : ∃ c ∈ s.head?, Text.isAlphanum c = true ∨ c = '-') (hnames : NamesIn P ('<' :: s))
    (hs : '<' ∉ s ∧ '>' ∉ s) (hr : Text.Stops isMarkChar r) : Stands P .tag cx string r := by
  obtain ⟨name, last, hscan⟩ := h
  have hhead := hnames.head (Delimiter.stops_isAlphanum hr)
  refine ⟨some (Delimiter.tagName (s ++ r)), .opened (Delimiter.tagName (s ++ r)), hhead, hhead,
    .inr rfl, hscan.trans ?_⟩
  have hmark : (s ++ r).head? ≠ some '!' := by
    obtain ⟨c, hc, hc'⟩ := hstart
    rw [List.head?_append, Option.mem_def.mp hc]
    rintro h
    cases h
    exact absurd hc' (by decide)
  have hplain : ∀ c ∈ s, c ≠ '<' ∧ c ≠ '>' := fun c hc =>
    ⟨fun heq => hs.1 (heq ▸ hc), fun heq => hs.2 (heq ▸ hc)⟩
  exact (Delimiter.scan_open hmark).trans (Delimiter.scan_append_of_plain hplain r)

/-- A close tag and what may come with it, whatever was known before. -/
theorem Passes.closeTag (h : Passes cx string (('<' :: '/' :: s) ++ r))
    (hnames : NamesIn P ('<' :: '/' :: s)) (hs : Uncommented ('<' :: '/' :: s))
    (hr : Text.Stops isMarkChar r ∨ endsInTag false ('<' :: '/' :: s) = false) :
    Stands P (.ofTag (endsInTag false ('<' :: '/' :: s))) cx string r := by
  obtain ⟨name, last, hscan⟩ := h
  -- a tag name stops at a slash
  have hopen : ∀ (name : Option Text) (last : Delimiter) (t : Text),
      Delimiter.scan name last false ('<' :: '/' :: t) =
        Delimiter.scan (some []) (.opened []) false ('/' :: t) := fun name last t =>
    Delimiter.scan_bracket (by simp [Token.commentOpen])
  rw [Uncommented, hopen] at hs
  rw [endsInTag, hopen] at hr ⊢
  have hstart : (Delimiter.opened []).inTag cx.inTag = (Delimiter.opened []).inTag false := rfl
  have hname : P ((some []).getD cx.tag) := hnames.head_self
  obtain ⟨name', last', hname', hlast', hend, hstep⟩ :=
    Delimiter.exists_scan hnames.tail hstart hs hr hname hname
  refine ⟨name', last', hname', hlast', .inr ?_, ?_⟩
  · rw [hend]
    cases (Delimiter.scan (some []) (.opened []) false ('/' :: s)).2.inTag false <;> rfl
  · rw [decide_ofTag_comment, hscan, ← hstep]
    exact hopen name last (s ++ r)

/-- Text inside an open tag without brackets. -/
theorem Stands.plain (h : Stands P .tag cx string (s ++ r)) (hs : ∀ c ∈ s, c ≠ '<' ∧ c ≠ '>') :
    Stands P .tag cx string r := by
  obtain ⟨name, last, hname, hlast, hp, hscan⟩ := h
  exact ⟨name, last, hname, hlast, hp, hscan.trans (Delimiter.scan_append_of_plain hs r)⟩

theorem Stands.close (h : Stands P (.ofTag b) cx string ('>' :: r)) :
    Stands P .text cx string r := by
  obtain ⟨name, last, hname, hlast, hp, hscan⟩ := h
  rw [decide_ofTag_comment, Delimiter.scan_close] at hscan
  exact ⟨name, .closed name, hname, hname, .inr rfl, hscan⟩

theorem Stands.openComment (h : Stands P (.ofTag b) cx string (Token.commentOpen ++ r))
    (hP : P []) : Stands P .comment cx string r := by
  obtain ⟨name, last, hname, hlast, hp, hscan⟩ := h
  rw [decide_ofTag_comment] at hscan
  exact ⟨some [], last, hP, hlast, .inl rfl, hscan⟩

theorem Stands.comment (h : Stands P .comment cx string (s ++ r)) (hnames : NamesIn P s)
    (hclose : ¬Token.commentClose <:+: s) (hr : Delimiter.KeepsComment r) :
    Stands P .comment cx string r := by
  obtain ⟨name, last, hname, hlast, hp, hscan⟩ := h
  obtain ⟨name', hname', hstep⟩ := Delimiter.exists_scan_comment hnames hclose hr hname
  exact ⟨name', last, hname', hlast, hp, hscan.trans hstep⟩

theorem Stands.closeComment (h : Stands P .comment cx string (Token.commentClose ++ r)) :
    Stands P .text cx string r := by
  obtain ⟨name, last, hname, hlast, hp, hscan⟩ := h
  exact ⟨name, .closed name, hname, hname, .inr rfl, hscan⟩

end ScanContext

end LiveMarkup
