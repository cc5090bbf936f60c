import LiveMarkup.Proofs.Markup.Places
import LiveMarkup.Proofs.Template.Form

/-!
# Comments of a page

Strings have no angle brackets once they are written, but the end of a comment is also made of
hyphens, and the `>` that completes it may be static. `comments_alike` says what a template has to
look like so that its strings neither open a comment nor end one: a `Form` is guarded when no blank
stands between a `<` and what decides about it, when attributes that come and go stand in tags, and
when no blank in a comment has the rest of an end mark directly behind it. Then the pages for all
strings have equally many comments, and each comment with a blank in it ends at one static mark.

The proof reads the static text alone and a page side by side: `Reader.Alike` is what stays true of
the two readers, blank by blank.
-/

namespace LiveMarkup

open Token (Place commentOpen commentClose)

/-! ## Texts in comments -/

namespace Token

/-- The text begins with the rest of an end mark of a comment. -/
def completesClose : Text → Bool
  | '>' :: _ | '-' :: '>' :: _ => true
  | _ => false

/-- Added to the body of a comment the text does not end it. -/
def Harmless (s : Text) : Prop :=
  ∀ body, ¬commentClose <:+: body → ¬commentClose <:+: body ++ s

variable {s t body : Text}

theorem harmless_nil : Harmless [] := fun body h => by rwa [List.append_nil]

theorem Harmless.append (hs : Harmless s) (ht : Harmless t) : Harmless (s ++ t) := fun body h => by
  rw [← List.append_assoc]
  exact ht _ (hs body h)

/-- An end mark across a seam has its rest at the beginning of the second text. -/
theorem infix_commentClose_append (h : commentClose <:+: body ++ s) :
    commentClose <:+: body ∨ commentClose <:+: s ∨ completesClose s = true := by
  obtain ⟨pre, post, h⟩ := h
  rcases List.append_eq_append_iff.mp h.symm with ⟨u, hpre, hs⟩ | ⟨u, hbody, -⟩
  · rcases List.append_eq_append_iff.mp hpre with ⟨v, hbody, hv⟩ | ⟨v, -, hv⟩
    · rcases v with _ | ⟨a, _ | ⟨b, _ | ⟨c, v⟩⟩⟩
      · exact .inr (.inl ⟨[], post, by rw [hs, hv]; rfl⟩)
      · obtain ⟨-, rfl⟩ : a = '-' ∧ u = ['-', '>'] := by
          simpa [commentClose, eq_comm] using hv
        exact .inr (.inr (by rw [hs]; rfl))
      · obtain ⟨-, -, rfl⟩ : a = '-' ∧ b = '-' ∧ u = ['>'] := by
          simpa [commentClose, eq_comm] using hv
        exact .inr (.inr (by rw [hs]; rfl))
      · obtain ⟨rfl, rfl, rfl, rfl, -⟩ : a = '-' ∧ b = '-' ∧ c = '>' ∧ v = [] ∧ u = [] := by
          simpa [commentClose, eq_comm] using hv
        exact .inl ⟨pre, [], by rw [hbody, List.append_nil]; rfl⟩
    · exact .inr (.inl ⟨v, post, by rw [← hv, hs]⟩)
  · exact .inl ⟨pre, u, hbody.symm⟩

theorem harmless_of_not_infix (hclose : ¬commentClose <:+: s) (hrest : completesClose s = false) :
    Harmless s := by
  intro body hbody h
  rcases infix_commentClose_append h with h | h | h
  · exact hbody h
  · exact hclose h
  · rw [h] at hrest
    cases hrest

theorem harmless_of_not_mem (h : '>' ∉ s) : Harmless s := by
  refine harmless_of_not_infix (fun hclose => h (hclose.mem (by simp [commentClose]))) ?_
  unfold completesClose
  split
  · simp at h
  · simp at h
  · rfl

theorem completesClose_append (h : completesClose (s ++ t) = false) : completesClose s = false := by
  unfold completesClose
  split
  · exact absurd h (by simp [completesClose])
  · exact absurd h (by simp [completesClose])
  · rfl

theorem not_infix_replicate (d : Nat) : ¬commentClose <:+: List.replicate d '-' := fun h =>
  absurd (List.eq_of_mem_replicate (h.mem (show '>' ∈ commentClose by simp [commentClose])))
    (by decide)

end Token

open Token (Harmless completesClose HasComment)

/-! ## Two readers -/

namespace Reader

/-- The readers have met equally many comments and stand at the same place, or both stand in a
comment. -/
structure Alike (r r' : Reader) : Prop where
  comments : r.comments = r'.comments
  places : r.place = r'.place ∨ r.place.isComment = true ∧ r'.place.isComment = true

variable {r r' : Reader} {p : Place} {n d d' : Nat} {s t : Text}

theorem Alike.refl (r : Reader) : Alike r r := ⟨rfl, .inl rfl⟩

theorem Alike.trans {r'' : Reader} (h : Alike r r') (h' : Alike r' r'') : Alike r r'' := by
  refine ⟨h.comments.trans h'.comments, ?_⟩
  rcases h.places with hplace | ⟨hin, hin'⟩
  · rw [hplace]
    exact h'.places
  · rcases h'.places with hplace | ⟨-, hin''⟩
    · exact .inr ⟨hin, hplace ▸ hin'⟩
    · exact .inr ⟨hin, hin''⟩

theorem alike_comment (d d' n : Nat) : Alike ⟨.comment d, n⟩ ⟨.comment d', n⟩ :=
  ⟨rfl, .inr ⟨rfl, rfl⟩⟩

theorem Alike.isComment (h : Alike r r') (hr : r.place.isComment = true) :
    r'.place.isComment = true := by
  rcases h.places with hplace | ⟨-, hr'⟩
  · exact hplace ▸ hr
  · exact hr'

theorem exists_comment (h : r.place.isComment = true) : ∃ d, r = ⟨.comment d, r.comments⟩ := by
  obtain ⟨p, n⟩ := r
  cases p with
  | comment d => exact ⟨d, rfl⟩
  | _ => cases h

theorem step_comment_hyphen : (⟨.comment d, n⟩ : Reader).step '-' = ⟨.comment (d + 1), n⟩ := by
  simp [step, Place.step]

theorem step_comment {c : Char} (hyphen : c ≠ '-') (hclose : c ≠ '>') :
    (⟨.comment d, n⟩ : Reader).step c = ⟨.comment 0, n⟩ := by
  simp [step, Place.step, hyphen, hclose]

theorem step_comment_close (h : 2 ≤ d) : (⟨.comment d, n⟩ : Reader).step '>' = ⟨.text, n⟩ := by
  simp [step, Place.step, h]

/-- Behind two hyphens it does not matter how many there were. -/
theorem alike_read_hyphens (hd : 2 ≤ d) (hd' : 2 ≤ d') (s : Text) :
    Alike ((⟨.comment d, n⟩ : Reader).read s) ((⟨.comment d', n⟩ : Reader).read s) := by
  induction s generalizing d d' with
  | nil => exact alike_comment d d' n
  | cons c s ih =>
    rw [read_cons, read_cons]
    by_cases hyphen : c = '-'
    · subst hyphen
      rw [step_comment_hyphen, step_comment_hyphen]
      exact ih (by omega) (by omega)
    by_cases hclose : c = '>'
    · subst hclose
      rw [step_comment_close hd, step_comment_close hd']
      exact .refl _
    · rw [step_comment hyphen hclose, step_comment hyphen hclose]
      exact .refl _

/-- The hyphens before a text matter only when it begins with the rest of an end mark. -/
theorem alike_read_comment (h : completesClose s = false) :
    Alike ((⟨.comment d, n⟩ : Reader).read s) ((⟨.comment d', n⟩ : Reader).read s) := by
  rcases s with _ | ⟨c, s⟩
  · exact alike_comment d d' n
  rw [read_cons, read_cons]
  by_cases hyphen : c = '-'
  · subst hyphen
    rw [step_comment_hyphen, step_comment_hyphen]
    rcases s with _ | ⟨e, s⟩
    · exact alike_comment _ _ n
    rw [read_cons, read_cons]
    by_cases hagain : e = '-'
    · subst hagain
      rw [step_comment_hyphen, step_comment_hyphen]
      exact alike_read_hyphens (Nat.le_add_left ..) (Nat.le_add_left ..) s
    · have hclose : e ≠ '>' := by
        rintro rfl
        cases h
      rw [step_comment hagain hclose, step_comment hagain hclose]
      exact .refl _
  · have hclose : c ≠ '>' := by
      rintro rfl
      cases h
    rw [step_comment hyphen hclose, step_comment hyphen hclose]
    exact .refl _

/-- Over the same text readers stay alike, unless it begins with the rest of an end mark. -/
theorem Alike.read (h : Alike r r') (hs : r.place.isComment = true → completesClose s = false) :
    Alike (r.read s) (r'.read s) := by
  rcases h.places with hplace | ⟨hr, hr'⟩
  · obtain rfl : r = r' := by
      cases r
      cases r'
      simp only [Reader.mk.injEq]
      exact ⟨hplace, h.comments⟩
    exact .refl _
  · obtain ⟨d, hd⟩ := exists_comment hr
    obtain ⟨d', hd'⟩ := exists_comment hr'
    rw [hd, hd', ← h.comments]
    exact alike_read_comment (hs hr)

end Reader

/-! ## Quotes of tags -/

namespace Token.Place

/-- What is open in a tag is one of the two quotes. -/
def Quoted (p : Place) : Prop := ∀ q, p = .tag (some q) → q = '"' ∨ q = '\''

theorem quoted_text : Quoted .text := nofun

theorem Quoted.step {p : Place} (h : p.Quoted) (c : Char) : (p.step c).Quoted := by
  intro q hq
  cases p with
  | tag quote =>
    cases quote with
    | some q' =>
      simp only [Place.step, Place.tag.injEq] at hq
      split at hq
      · cases hq
      · cases hq
        exact h q rfl
    | none =>
      simp only [Place.step] at hq
      split at hq
      · cases hq
      · simp only [Place.tag.injEq] at hq
        split at hq
        · next hquote =>
          cases hq
          simpa using hquote
        · cases hq
  | _ =>
    simp only [Place.step] at hq
    grind

end Token.Place

namespace Reader

variable {r r' : Reader} {s : Text}

theorem quoted_read (h : r.place.Quoted) (s : Text) : (r.read s).place.Quoted := by
  induction s generalizing r with
  | nil => exact h
  | cons c s ih => exact ih (h.step c)

/-- A text without brackets and quotes does not lead a reader on; in a tag it may hold a `<`. -/
theorem alike_read_plain (hsteady : r.place.isSteady = true) (hquoted : r.place.Quoted)
    (hs : ∀ c ∈ s, Token.isPlain c = true) (hopen : '<' ∉ s ∨ r.place.isTag = true) :
    Alike r (r.read s) := by
  have hmem {c : Char} (hc : Token.isPlain c = false) : c ∉ s := fun hcs => by
    rw [hs c hcs] at hc
    cases hc
  obtain ⟨p, n⟩ := r
  cases p with
  | text =>
    rw [read_text (hopen.resolve_right nofun)]
    exact .refl _
  | tag quote =>
    have hquote : Token.quoteAfter? quote s = some quote := by
      cases quote with
      | none => exact Token.quoteAfter?_plain hs
      | some q =>
        refine Token.quoteAfter?_inside (hmem ?_)
        rcases hquoted q rfl with rfl | rfl
        · rfl
        · rfl
    rw [read_tag hquote]
    exact .refl _
  | comment d =>
    have hclose : ¬commentClose <:+: List.replicate d '-' ++ s :=
      Token.harmless_of_not_mem (hmem rfl) _ (Token.not_infix_replicate d)
    obtain ⟨e, he⟩ := read_comment (n := n) hclose
    rw [he]
    exact alike_comment d e n
  | _ => cases hsteady

end Reader

/-! ## Blanks -/

open Reader (Alike)

namespace Blank

/-- The blank may stand at the place, with `behind` behind it: a value in text, a tag or a comment,
there with no rest of an end mark behind it; markup that comes and goes in a tag. -/
def fits (p : Place) (behind : Text) : Blank → Bool
  | .value _ => p.isSteady && !(p.isComment && completesClose behind)
  | .option _ _ => p.isTag

/-- Markup that comes and goes holds no quotes and no `>`. -/
def IsPlain : Blank → Prop
  | .value _ => True
  | .option _ markup => ∀ c ∈ markup, Token.isPlain c = true

variable {b : Blank} {r r' : Reader} {p : Place} {behind : Text}

theorem completesClose_of_fits (h : b.fits p behind = true) (hp : p.isComment = true) :
    completesClose behind = false := by
  cases b with
  | value slot =>
    rw [fits, hp, Bool.true_and, Bool.and_eq_true, Bool.not_eq_true'] at h
    exact h.2
  | option slot markup =>
    cases p with
    | comment d => cases h
    | _ => cases hp

theorem fits_of_alike (h : b.fits r.place behind = true) (halike : Alike r r') :
    b.fits r'.place behind = true := by
  rcases halike.places with hplace | ⟨hr, hr'⟩
  · exact hplace ▸ h
  · obtain ⟨d, hd⟩ := Reader.exists_comment hr
    obtain ⟨d', hd'⟩ := Reader.exists_comment hr'
    rw [hd] at h
    rw [hd']
    exact h

theorem not_mem_fill_value {c : Char} (hc : c ∈ ['"', '\'', '<', '>']) (strings : List Text)
    (slot : Nat) : c ∉ (Blank.value slot).fill strings :=
  Text.not_mem_escapeEntities hc _

/-- No string leads a reader on in a blank. -/
theorem alike_read_fill (hplain : b.IsPlain) (hfits : b.fits r.place behind = true)
    (hquoted : r.place.Quoted) (strings : List Text) : Alike r (r.read (b.fill strings)) := by
  cases b with
  | value slot =>
    refine Reader.alike_read_plain (Bool.and_eq_true _ _ ▸ hfits).1 hquoted (fun c hc => ?_)
      (.inl (not_mem_fill_value (by decide) strings slot))
    simp only [Token.isPlain, Bool.not_eq_true', Bool.or_eq_false_iff, decide_eq_false_iff_not]
    refine ⟨⟨?_, ?_⟩, ?_⟩
    all_goals
      rintro rfl
      exact not_mem_fill_value (by decide) strings slot hc
  | option slot markup =>
    have hsteady : r.place.isSteady = true := by
      cases hp : r.place with
      | tag quote => rfl
      | _ =>
        rw [hp] at hfits
        cases hfits
    rw [fill]
    split
    · exact .refl r
    · exact Reader.alike_read_plain hsteady hquoted hplain (.inr hfits)

end Blank

namespace Form

variable {near far blanks : List (Blank × Text)} {r r' : Reader}

/-- Every blank fits where the static text before it leads to. -/
def fitsAll (r : Reader) : List (Blank × Text) → Bool
  | [] => true
  | (b, behind) :: blanks => b.fits r.place behind && fitsAll (r.read behind) blanks

theorem fitsAll_append : fitsAll r (near ++ far) = true ↔
    fitsAll r near = true ∧ fitsAll (r.read (statics near)) far = true := by
  induction near generalizing r with
  | nil => exact ⟨fun h => ⟨rfl, h⟩, And.right⟩
  | cons b near ih =>
    have hstatics : r.read (statics (b :: near)) = (r.read b.2).read (statics near) := by
      rw [statics, List.flatMap_cons, Reader.read_append]
      rfl
    rw [List.cons_append, fitsAll, fitsAll, Bool.and_eq_true, Bool.and_eq_true, ih, and_assoc,
      hstatics]

/-- A reader of the static text alone and a reader of a page stay alike. -/
theorem alike_fillBlanks (hplain : ∀ b ∈ blanks, b.1.IsPlain) (hfits : fitsAll r blanks = true)
    (hquoted : r'.place.Quoted) (h : Alike r r') (strings : List Text) :
    Alike (r.read (statics blanks)) (r'.read (fillBlanks strings blanks)) := by
  induction blanks generalizing r r' with
  | nil => exact h
  | cons b blanks ih =>
    obtain ⟨b, behind⟩ := b
    rw [List.forall_mem_cons] at hplain
    rw [fitsAll, Bool.and_eq_true] at hfits
    have hfill : Alike r (r'.read (b.fill strings)) :=
      h.trans (Blank.alike_read_fill hplain.1 (Blank.fits_of_alike hfits.1 h) hquoted strings)
    have hbehind := hfill.read (Blank.completesClose_of_fits hfits.1)
    rw [statics, fillBlanks, List.flatMap_cons, List.flatMap_cons, Reader.read_append,
      Reader.read_append, Reader.read_append]
    exact ih hplain.2 hfits.2 (Reader.quoted_read (Reader.quoted_read hquoted _) _) hbehind

/-! ## The end of a comment -/

/-- From a blank in a comment on nothing ends the comment but a mark in the static text, which is the
same for all strings. -/
theorem exists_close (hfits : fitsAll r far = true) (hcomment : r.place.isComment = true) :
    (∃ mid b m rest later, far = mid ++ (b, m ++ (commentClose ++ rest)) :: later ∧
      ∀ strings, Harmless (fillBlanks strings mid ++ (b.fill strings ++ m))) ∨
    ∀ strings, Harmless (fillBlanks strings far) := by
  induction far generalizing r with
  | nil => exact .inr fun _ => Token.harmless_nil
  | cons b far ih =>
    obtain ⟨b, behind⟩ := b
    rw [fitsAll, Bool.and_eq_true] at hfits
    have hrest := Blank.completesClose_of_fits hfits.1 hcomment
    have hfill (strings : List Text) : Harmless (b.fill strings) := by
      cases b with
      | value slot =>
        exact Token.harmless_of_not_mem (Blank.not_mem_fill_value (by decide) strings slot)
      | option slot markup =>
        obtain ⟨d, hd⟩ := Reader.exists_comment hcomment
        rw [hd] at hfits
        cases hfits.1
    cases hcut : Text.cut? commentClose behind with
    | some cut =>
      obtain ⟨m, rest⟩ := cut
      have hbehind := Text.eq_append_of_cut? hcut
      refine .inl ⟨[], b, m, rest, far, by rw [← hbehind]; rfl, fun strings => ?_⟩
      rw [hbehind] at hrest
      exact (hfill strings).append (Token.harmless_of_not_infix
        (Text.not_infix_of_cut? (by simp [commentClose]) hcut) (Token.completesClose_append hrest))
    | none =>
      have hbehind : Harmless behind :=
        Token.harmless_of_not_infix (Text.cut?_eq_none_iff.mp hcut) hrest
      have hpiece (strings : List Text) : Harmless (b.fill strings ++ behind) :=
        (hfill strings).append hbehind
      have hstays : (r.read behind).place.isComment = true := by
        obtain ⟨d, hd⟩ := Reader.exists_comment hcomment
        obtain ⟨e, he⟩ := Reader.read_comment (n := r.comments)
          (hbehind _ (Token.not_infix_replicate d))
        rw [hd, he]
        rfl
      rcases ih hfits.2 hstays with ⟨mid, b', m, rest, later, rfl, hmid⟩ | hall
      · refine .inl ⟨(b, behind) :: mid, b', m, rest, later, rfl, fun strings => ?_⟩
        rw [fillBlanks, List.flatMap_cons, List.append_assoc]
        exact (hpiece strings).append (hmid strings)
      · refine .inr fun strings => ?_
        rw [fillBlanks, List.flatMap_cons]
        exact (hpiece strings).append (hall strings)

/-- The reader of the static text before and between `near`. -/
def readerAt (f : Form) (near : List (Blank × Text)) : Reader :=
  (⟨.text, 0⟩ : Reader).read (f.head ++ statics near)

/-- Every blank fits where it stands. -/
def isGuarded (f : Form) : Bool := fitsAll (f.readerAt []) f.blanks

/-- The comment in which `far` begins, behind `near`, goes on to one mark of the static text for all
strings, or to the end of the page for all strings. -/
def ClosesAlike (f : Form) (near far : List (Blank × Text)) : Prop :=
  (∃ mid b m rest later, far = mid ++ (b, m ++ (commentClose ++ rest)) :: later ∧
    ∀ strings, ∃ lead body, f.head ++ fillBlanks strings near = lead ++ (commentOpen ++ body) ∧
      HasComment (f.fill strings) lead (body ++ (fillBlanks strings mid ++ (b.fill strings ++ m)))
        (rest ++ fillBlanks strings later)) ∨
  ∀ strings, ∃ lead body, f.head ++ fillBlanks strings near = lead ++ (commentOpen ++ body) ∧
    HasComment (f.fill strings) lead (body ++ fillBlanks strings far) []

variable {f : Form} (hguarded : f.isGuarded = true) (hplain : ∀ b ∈ f.blanks, b.1.IsPlain)

include hguarded hplain

/-- Up to a blank a page leads where its static text leads. -/
theorem alike_readerAt (hblanks : f.blanks = near ++ far) (strings : List Text) :
    Alike (f.readerAt near) ((⟨.text, 0⟩ : Reader).read (f.head ++ fillBlanks strings near)) := by
  rw [isGuarded, hblanks, fitsAll_append] at hguarded
  have hhead : f.readerAt [] = (⟨.text, 0⟩ : Reader).read f.head := by
    rw [readerAt, statics, List.flatMap_nil, List.append_nil]
  rw [hhead] at hguarded
  rw [readerAt, Reader.read_append, Reader.read_append]
  exact alike_fillBlanks (fun b hb => hplain b (hblanks ▸ List.mem_append_left far hb)) hguarded.1
    (Reader.quoted_read Place.quoted_text f.head) (.refl _) strings

/-- All pages have as many comments as the static text. -/
theorem countP_fill (strings : List Text) :
    (Token.lexer.tokens (f.fill strings)).countP Token.isComment =
      (f.readerAt f.blanks).comments := by
  have halike := alike_readerAt hguarded hplain (List.append_nil f.blanks).symm strings
  rw [halike.comments, Reader.comments_read, Nat.zero_add, fill]

theorem closesAlike (hblanks : f.blanks = near ++ far)
    (hcomment : (f.readerAt near).place.isComment = true) : f.ClosesAlike near far := by
  have hpage (strings : List Text) : ((⟨.text, 0⟩ : Reader).read
      (f.head ++ fillBlanks strings near)).place.isComment = true :=
    (alike_readerAt hguarded hplain hblanks strings).isComment hcomment
  have hfill (strings : List Text) :
      f.fill strings = f.head ++ fillBlanks strings near ++ fillBlanks strings far := by
    rw [fill, hblanks, fillBlanks_append, List.append_assoc]
  have hfar : fitsAll (f.readerAt near) far = true := by
    rw [isGuarded, hblanks, fitsAll_append, readerAt, ← Reader.read_append] at hguarded
    simpa [statics, readerAt] using hguarded.2
  rcases exists_close hfar hcomment with ⟨mid, b, m, rest, later, rfl, hmiddle⟩ | hall
  · refine .inl ⟨mid, b, m, rest, later, rfl, fun strings => ?_⟩
    obtain ⟨lead, body, hlead, hhas⟩ := Token.hasComment_of_isComment (hpage strings)
      (hmiddle strings) (rest ++ fillBlanks strings later)
    refine ⟨lead, body, hlead, ?_⟩
    have hpieces : fillBlanks strings (mid ++ (b, m ++ (commentClose ++ rest)) :: later) =
        fillBlanks strings mid ++ (b.fill strings ++ m) ++
          (commentClose ++ (rest ++ fillBlanks strings later)) := by
      simp [fillBlanks]
    rw [hfill, hpieces]
    exact hhas
  · refine .inr fun strings => ?_
    obtain ⟨lead, body, hlead, hhas⟩ :=
      Token.hasComment_last_of_isComment (hpage strings) (hall strings)
    exact ⟨lead, body, hlead, hfill strings ▸ hhas⟩

end Form

/-! ## Templates -/

/-- The space before an attribute and its name hold no quotes and no `>`. -/
theorem Binding.Made.isPlain {b : Binding} (h : b.Made) :
    ∀ c ∈ b.leading :: b.name, Token.isPlain c = true := by
  refine List.forall_mem_cons.mpr ⟨Token.isPlain_of_isSpace h.leading, fun c hc => ?_⟩
  have hchar := h.chars c hc
  simp only [OpenAttribute.isNameChar, Bool.not_eq_true', Bool.or_eq_false_iff,
    decide_eq_false_iff_not] at hchar
  simp [Token.isPlain, hchar]

namespace Form

variable {f : Form} {slot : Nat}

theorem isPlain_literals (hf : ∀ b ∈ f.blanks, b.1.IsPlain) (texts : List Text) :
    ∀ b ∈ (literals slot texts f).blanks, b.1.IsPlain := by
  fun_induction literals slot texts f with
  | case1 => exact hf
  | case2 => exact hf
  | case3 slot f literal more hmore ih => exact List.forall_mem_cons.mpr ⟨trivial, ih hf⟩

theorem isPlain_part (config : Config) {p : Part} (hf : ∀ b ∈ f.blanks, b.1.IsPlain)
    (hp : ∀ b, p = .binding b → b.Made) : ∀ b ∈ (f.part config slot p).blanks, b.1.IsPlain := by
  cases p with
  | text tag => exact List.forall_mem_cons.mpr ⟨trivial, hf⟩
  | binding b =>
    have hwritten : ∀ b' ∈ (f.written slot b).blanks, b'.1.IsPlain :=
      isPlain_literals (f := f.put ['"']) hf b.literals
    rw [part]
    split
    · exact hwritten
    · split
      · exact hwritten
      · exact hf
    · exact hf
    · exact List.forall_mem_cons.mpr ⟨(hp b rfl).isPlain, hf⟩

theorem isPlain_ofTiles (config : Config) {tiles : List (Part × Text)}
    (h : ∀ b behind, (.binding b, behind) ∈ tiles → b.Made) :
    ∀ b ∈ (ofTiles config slot tiles).blanks, b.1.IsPlain := by
  induction tiles generalizing slot with
  | nil => nofun
  | cons tile tiles ih =>
    obtain ⟨p, behind⟩ := tile
    refine isPlain_part config ?_ fun b hb => h b behind (hb ▸ List.mem_cons_self)
    exact ih fun b behind hb => h b behind (List.mem_cons_of_mem _ hb)

end Form

namespace Template

/-- Strings neither open nor end comments: when no value of an accepted template stands in the text
of a script or style element and its form is guarded, the pages for all strings have equally many
comments, and every comment that a value stands in ends at one mark of the static text. -/
theorem comments_alike (config : Config) {fragments : List Text} {t : Template}
    (ht : ofFragments fragments = .ok t) (hescaped : ∀ tile ∈ t.tiles, tile.1.isEscaped)
    (hguarded : (t.form config).isGuarded = true) :
    (∃ n, ∀ strings, strings.length = t.slotCount →
      TemplateResult.resolve config ⟨.ok t, strings.map .string⟩ =
          .ok ((t.form config).fill strings) ∧
        (Token.lexer.tokens ((t.form config).fill strings)).countP Token.isComment = n) ∧
    ∀ near slot behind far, (t.form config).blanks = near ++ (.value slot, behind) :: far →
      ((t.form config).readerAt near).place.isComment = true →
        (t.form config).ClosesAlike near ((.value slot, behind) :: far) := by
  have hplain : ∀ b ∈ (t.form config).blanks, b.1.IsPlain :=
    Form.isPlain_ofTiles config fun b behind hb => made_of_mem_tiles ht hb
  refine ⟨⟨_, fun strings hlength => ⟨resolve_strings config hescaped hlength,
    Form.countP_fill hguarded hplain strings⟩⟩, ?_⟩
  intro near slot behind far hblanks hcomment
  exact Form.closesAlike hguarded hplain hblanks hcomment

/-- A comment with a value in it, and behind it an attribute that comes and goes. -/
def signed : Template := Tiling.template {
  head := "<!-- by ".toList
  tiles := [(.text [], " --><p".toList), (.binding hiddenFlag, "></p>".toList)] }

theorem comments_alike_signed :
    (∃ n, ∀ strings, strings.length = 2 →
      TemplateResult.resolve {} ⟨.ok signed, strings.map .string⟩ =
          .ok ((signed.form {}).fill strings) ∧
        (Token.lexer.tokens ((signed.form {}).fill strings)).countP Token.isComment = n) ∧
    (signed.form {}).ClosesAlike []
      [(.value 0, " --><p".toList), (.option 1 " hidden".toList, "></p>".toList)] := by
  have hsplit : ofFragments ["<!-- by ".toList, " --><p ?hidden=".toList, "></p>".toList] =
      .ok signed := ofFragments_eq_ok (by decide +kernel)
  have hescaped : ∀ tile ∈ signed.tiles, tile.1.isEscaped := by
    rintro tile (_ | ⟨_, _ | ⟨_, ⟨⟩⟩⟩)
    · rfl
    · trivial
  obtain ⟨hcount, hclose⟩ := comments_alike {} hsplit hescaped (by decide +kernel)
  exact ⟨hcount, hclose [] 0 " --><p".toList _ rfl (by decide +kernel)⟩

/-- How many comments the page of a template has. -/
def commentCount (t : Template) (strings : List Text) : Except ResolveError Nat :=
  (TemplateResult.resolve {} ⟨.ok t, strings.map .string⟩).map fun page =>
    (Token.lexer.tokens page).countP Token.isComment

theorem commentCount_eq {t : Template} {strings : List Text} {page : Text} {n : Nat}
    (h : TemplateResult.resolve {} ⟨.ok t, strings.map .string⟩ = .ok page)
    (hn : ((⟨.text, 0⟩ : Reader).read page).comments = n) : commentCount t strings = .ok n := by
  rw [Reader.comments_read, Nat.zero_add] at hn
  rw [commentCount, h, ← hn]
  rfl

/-- A `>` behind a value in a comment completes the end mark that the value begins. Values have a
say in what a comment is where they stand behind a `<`, where they take an attribute out of
something that is no tag, and in scripts. -/
theorem not_comments_alike :
    (∃ t, ofFragments ["<!-- ".toList, "> -->".toList] = .ok t ∧
      (({} : ScanContext).advance "<!-- ".toList).inComment = true ∧
      TemplateResult.resolve {} ⟨.ok t, [.string ['x']]⟩ = .ok "<!-- x> -->".toList ∧
      HasComment "<!-- x> -->".toList [] " x> ".toList [] ∧
      TemplateResult.resolve {} ⟨.ok t, [.string ['-', '-']]⟩ = .ok "<!-- --> -->".toList ∧
      HasComment "<!-- --> -->".toList [] [' '] " -->".toList) ∧
    (∃ t, ofFragments ["<a title=\"<!--\"><".toList, " -->".toList] = .ok t ∧
      (({} : ScanContext).advance "<a title=\"<!--\"><".toList).inComment = true ∧
      commentCount t [['x']] = .ok 0 ∧ commentCount t ["!--".toList] = .ok 1) ∧
    (∃ t, ofFragments ["< ?x=".toList, "!-- --> <!-- ".toList, " -->".toList] = .ok t ∧
      ((({} : ScanContext).advance "< ?x=".toList).advance "!-- --> <!-- ".toList).inComment = true ∧
      commentCount t [['x'], []] = .ok 1 ∧ commentCount t [[], []] = .ok 2) ∧
    ∃ t, ofFragments ["<script>".toList, "</script><!-- ".toList, " -->".toList] = .ok t ∧
      ((({} : ScanContext).advance "<script>".toList).advance
        "</script><!-- ".toList).inComment = true ∧
      commentCount t [['x'], []] = .ok 1 ∧ commentCount t ["<a \"".toList, []] = .ok 0 := by
  have cut : ofFragments ["<!-- ".toList, "> -->".toList] =
      .ok (Tiling.template ⟨"<!-- ".toList, [(.text [], "> -->".toList)]⟩) :=
    ofFragments_eq_ok (by decide +kernel)
  have behind : ofFragments ["<a title=\"<!--\"><".toList, " -->".toList] =
      .ok (Tiling.template ⟨"<a title=\"<!--\"><".toList, [(.text ['a'], " -->".toList)]⟩) :=
    ofFragments_eq_ok (by decide +kernel)
  have taken : ofFragments ["< ?x=".toList, "!-- --> <!-- ".toList, " -->".toList] =
      .ok (Tiling.template ⟨['<'], [
        (.binding { kind := .boolean, name := ['x'], literals := [[], []], tag := [], leading := ' ' },
          "!-- --> <!-- ".toList),
        (.text [], " -->".toList)]⟩) :=
    ofFragments_eq_ok (by decide +kernel)
  have script : ofFragments ["<script>".toList, "</script><!-- ".toList, " -->".toList] =
      .ok (Tiling.template ⟨"<script>".toList, [(.text "script".toList, "</script><!-- ".toList),
        (.text [], " -->".toList)]⟩) :=
    ofFragments_eq_ok (by decide +kernel)
  refine ⟨⟨_, cut, by decide +kernel, rfl, ?_, rfl, ?_⟩,
    ⟨_, behind, by decide +kernel, commentCount_eq rfl rfl, commentCount_eq rfl rfl⟩,
    ⟨_, taken, by decide +kernel, commentCount_eq rfl rfl, commentCount_eq rfl rfl⟩,
    _, script, by decide +kernel, commentCount_eq rfl rfl, commentCount_eq rfl rfl⟩
  · have hbody : ¬commentClose <:+: " x> ".toList := by decide
    exact ⟨[], _, _, Token.pieces_comment hbody [], rfl, Token.lexer.flatten_pieces []⟩
  · have hbody : ¬commentClose <:+: [' '] := by decide
    exact ⟨[], _, _, Token.pieces_comment hbody " -->".toList, rfl, Token.lexer.flatten_pieces _⟩

end Template

end LiveMarkup
