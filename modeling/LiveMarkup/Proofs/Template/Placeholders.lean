import LiveMarkup.Template.Source
import LiveMarkup.Proofs.Text.Spans
import LiveMarkup.Proofs.Text.Utf8

/-!
# Splitting at placeholders

A source that leaves no placeholder open is split in just one way: into static texts in which no
placeholder is opened and placeholders in which braces are balanced (`ofText_eq_iff`). A splitter
that sees bytes only cuts at the same places (`splitBytes_utf8`), and places in a fragment are the
places in the text that hold the same characters (`holds_absoluteSpan`).
-/

namespace LiveMarkup

namespace Source

/-- What opens a placeholder. -/
def mark : Text := ['$', '{']

/-! ## Balanced braces -/

/-- Braces that close `depth` braces opened before: no prefix closes more, and the whole closes just
as many. -/
structure Closes (depth : Nat) (t : Text) : Prop where
  count_le : ∀ s, s <+: t → s.count '}' ≤ s.count '{' + depth
  count_eq : t.count '}' = t.count '{' + depth

/-- No prefix has more closing braces than opening ones, and the whole has equally many. -/
def Balanced (t : Text) : Prop := Closes 0 t

variable {depth : Nat} {t inside rest : Text}

theorem closes_nil : Closes depth [] ↔ depth = 0 := by
  constructor
  · intro h
    have hcount := h.count_eq
    simp only [List.count_nil] at hcount
    omega
  · rintro rfl
    refine ⟨fun s hs => ?_, rfl⟩
    rw [List.prefix_nil.mp hs]
    exact Nat.le_refl 0

/-- A text closes what is open behind its first character. -/
theorem closes_cons {c : Char} : Closes depth (c :: t) ↔ [c].count '}' ≤ [c].count '{' + depth ∧
    Closes (depth + [c].count '{' - [c].count '}') t := by
  have hcount (brace : Char) (s : Text) :
      (c :: s).count brace = [c].count brace + s.count brace := by
    rw [← List.singleton_append, List.count_append]
  constructor
  · intro h
    have hfirst := h.count_le [c] (List.prefix_append [c] t)
    refine ⟨hfirst, fun s hs => ?_, ?_⟩
    · have hle := h.count_le (c :: s) (List.cons_prefix_cons.mpr ⟨rfl, hs⟩)
      rw [hcount _ s, hcount _ s] at hle
      omega
    · have heq := h.count_eq
      rw [hcount _ t, hcount _ t] at heq
      omega
  · rintro ⟨hfirst, h⟩
    refine ⟨fun s hs => ?_, ?_⟩
    · cases s with
      | nil => exact Nat.zero_le _
      | cons d s =>
        obtain ⟨rfl, htail⟩ := List.cons_prefix_cons.mp hs
        have hle := h.count_le s htail
        rw [hcount _ s, hcount _ s]
        omega
    · have heq := h.count_eq
      rw [hcount _ t, hcount _ t]
      omega

theorem closes_open : Closes depth ('{' :: t) ↔ Closes (depth + 1) t := by
  rw [closes_cons]
  exact and_iff_right (Nat.zero_le _)

theorem closes_close : Closes depth ('}' :: t) ↔ ∃ outer, depth = outer + 1 ∧ Closes outer t := by
  rw [closes_cons]
  constructor
  · rintro ⟨hfirst, h⟩
    cases depth with
    | zero => cases hfirst
    | succ outer => exact ⟨outer, rfl, h⟩
  · rintro ⟨outer, rfl, h⟩
    exact ⟨Nat.succ_le_succ (Nat.zero_le _), h⟩

theorem closes_other {c : Char} (hopen : c ≠ '{') (hclose : c ≠ '}') :
    Closes depth (c :: t) ↔ Closes depth t := by
  have hnone {brace : Char} (h : c ≠ brace) : [c].count brace = 0 :=
    List.count_eq_zero.mpr fun hmem => h (List.mem_singleton.mp hmem).symm
  rw [closes_cons, hnone hopen, hnone hclose]
  exact and_iff_right (Nat.zero_le _)

/-- What is cut off before the closing brace closes all that was open. -/
theorem closes_of_close? (h : close? depth t = some (inside, rest)) : Closes depth inside := by
  fun_induction close? depth t generalizing inside with
  | case1 => contradiction
  | case2 depth t ih =>
    simp only [Option.map_eq_some_iff, Prod.mk.injEq] at h
    obtain ⟨⟨i, r⟩, hi, rfl, rfl⟩ := h
    exact closes_open.mpr (ih hi)
  | case3 t =>
    simp only [Option.some.injEq, Prod.mk.injEq] at h
    obtain ⟨rfl, rfl⟩ := h
    exact closes_nil.mpr rfl
  | case4 t depth ih =>
    simp only [Option.map_eq_some_iff, Prod.mk.injEq] at h
    obtain ⟨⟨i, r⟩, hi, rfl, rfl⟩ := h
    exact closes_close.mpr ⟨depth, rfl, ih hi⟩
  | case5 depth c t hopen hclose ih =>
    simp only [Option.map_eq_some_iff, Prod.mk.injEq] at h
    obtain ⟨⟨i, r⟩, hi, rfl, rfl⟩ := h
    exact (closes_other hopen hclose).mpr (ih hi)

/-- The closing brace is found behind a text that closes all that was open. -/
theorem close?_append (h : Closes depth inside) :
    close? depth (inside ++ '}' :: rest) = some (inside, rest) := by
  induction inside generalizing depth with
  | nil =>
    rw [closes_nil.mp h]
    rfl
  | cons c inside ih =>
    rw [List.cons_append]
    by_cases hopen : c = '{'
    · subst hopen
      rw [close?, ih (closes_open.mp h)]
      rfl
    by_cases hclose : c = '}'
    · subst hclose
      obtain ⟨outer, rfl, houter⟩ := closes_close.mp h
      rw [close?, ih houter]
      rfl
    · rw [close?, ih ((closes_other hopen hclose).mp h)]
      · rfl
      · exact hopen
      · exact hclose

/-! ## Splitting and joining -/

/-- A source as a text is split into it: no placeholder is opened in a static text, and the braces
in every placeholder are balanced. -/
structure Proper (s : Source) : Prop where
  fragments : ∀ f ∈ s.fragments, ¬mark <:+: f
  holes : ∀ hole ∈ s.holes, Balanced hole.1

theorem ofText_cons {c : Char} (h : ¬mark <+: c :: t) : ofText (c :: t) = (ofText t).push c := by
  rw [ofText]
  rintro u rfl rfl
  exact h ⟨u, rfl⟩

theorem ofText_hole (h : Balanced inside) :
    ofText ('$' :: '{' :: (inside ++ '}' :: rest)) =
      ⟨[], (inside, (ofText rest).head) :: (ofText rest).holes⟩ := by
  have hclose : close? 0 (inside ++ '}' :: rest) = some (inside, rest) := close?_append h
  rw [ofText]
  split
  · next hnone =>
    rw [hclose] at hnone
    cases hnone
  · next i r hsome =>
    rw [hclose] at hsome
    cases hsome
    rfl

theorem text_push (c : Char) (s : Source) : (s.push c).text = c :: s.text := rfl

/-- Joining gives back the text that was split. -/
theorem text_ofText (t : Text) : (ofText t).text = t := by
  fun_induction ofText t with
  | case1 => rfl
  | case2 t hnone => simp [text]
  | case3 t inside rest hsome s ih =>
    rw [eq_append_of_close? hsome, ← ih]
    simp [text, s]
  | case4 c t _ ih =>
    rw [text_push, ih]

/-- No placeholder is left open exactly when none is opened in the last static text. -/
theorem unclosed?_eq_none_iff {s : Source} :
    s.unclosed? = none ↔ ¬mark <:+: s.fragments.getLast?.getD [] := by
  rw [unclosed?, Option.map_eq_none_iff]
  exact Text.cut?_eq_none_iff

theorem not_mark_infix_nil : ¬mark <:+: [] := by decide

theorem unclosed?_hole (inside : Text) (s : Source) :
    unclosed? ⟨[], (inside, s.head) :: s.holes⟩ = s.unclosed? := by
  simp [unclosed?, fragments, List.getLast?_cons_cons]

theorem unclosed?_of_push {c : Char} {s : Source} (h : (s.push c).unclosed? = none) :
    s.unclosed? = none := by
  rw [unclosed?_eq_none_iff] at h ⊢
  rcases s with ⟨head, _ | ⟨hole, holes⟩⟩
  · intro hhead
    exact h (List.infix_cons hhead)
  · simpa [push, fragments, List.getLast?_cons_cons] using h

/-- A text that leaves no placeholder open is split into a proper source. -/
theorem proper_ofText (h : (ofText t).unclosed? = none) : (ofText t).Proper := by
  fun_induction ofText t with
  | case1 =>
    refine ⟨fun f hf => ?_, fun _ hhole => nomatch hhole⟩
    rw [fragments, List.map_nil, List.mem_singleton] at hf
    rw [hf]
    exact not_mark_infix_nil
  | case2 t hnone =>
    exact absurd (List.prefix_append mark t).isInfix (unclosed?_eq_none_iff.mp h)
  | case3 t inside rest hsome s ih =>
    rw [unclosed?_hole] at h
    obtain ⟨hfragments, hholes⟩ := ih h
    refine ⟨?_, List.forall_mem_cons.mpr ⟨closes_of_close? hsome, hholes⟩⟩
    exact List.forall_mem_cons.mpr ⟨not_mark_infix_nil, hfragments⟩
  | case4 c t hhole ih =>
    obtain ⟨hfragments, hholes⟩ := ih (unclosed?_of_push h)
    obtain ⟨hhead, hothers⟩ := List.forall_mem_cons.mp hfragments
    refine ⟨List.forall_mem_cons.mpr ⟨fun hmark => ?_, hothers⟩, hholes⟩
    rcases List.infix_cons_iff.mp hmark with hstart | hlater
    · -- then the text goes on with the opening brace, and a placeholder is opened here
      have hopened : mark <+: c :: t := by
        have htext := text_ofText t
        rw [text] at htext
        rw [← htext, ← List.cons_append]
        exact hstart.trans (List.prefix_append _ _)
      obtain ⟨u, hu⟩ := hopened
      obtain ⟨rfl, rfl⟩ := List.cons.inj hu
      exact hhole u rfl rfl
    · exact hhead hlater

/-- Static text before the end or before a placeholder becomes part of the first fragment. -/
theorem ofText_append {head : Text} (hhead : ¬mark <:+: head) (hrest : ∀ c ∈ rest.head?, c = '$') :
    ofText (head ++ rest) = ⟨head ++ (ofText rest).head, (ofText rest).holes⟩ := by
  induction head with
  | nil => rfl
  | cons c head ih =>
    rw [List.infix_cons_iff, not_or] at hhead
    have hmark : ¬mark <+: c :: (head ++ rest) := by
      rintro ⟨u, hu⟩
      obtain ⟨hc, htail⟩ := List.cons.inj hu
      cases head with
      | nil =>
        have hfirst : '{' ∈ rest.head? := by
          rw [← List.nil_append rest, ← htail]
          exact rfl
        exact absurd (hrest '{' hfirst) (by decide)
      | cons d head =>
        rw [← hc, ← (List.cons.inj htail).1] at hhead
        exact hhead.1 (List.prefix_append mark head)
    rw [List.cons_append, ofText_cons hmark, ih hhead.2]
    rfl

/-- A proper source is what its text is split into. -/
theorem Proper.ofText_text {s : Source} (h : s.Proper) : ofText s.text = s := by
  obtain ⟨head, holes⟩ := s
  induction holes generalizing head with
  | nil =>
    have hend : ∀ c ∈ ([] : Text).head?, c = '$' := fun _ hc => nomatch hc
    rw [text, List.flatMap_nil, ofText_append (h.fragments head List.mem_cons_self) hend, ofText,
      List.append_nil]
  | cons hole holes ih =>
    obtain ⟨hfragments, hholes⟩ := h
    obtain ⟨hhead, hfragments⟩ := List.forall_mem_cons.mp hfragments
    obtain ⟨hhole, hholes⟩ := List.forall_mem_cons.mp hholes
    have hrest : ofText (text ⟨hole.2, holes⟩) = ⟨hole.2, holes⟩ := ih hole.2 ⟨hfragments, hholes⟩
    have htext : text ⟨head, hole :: holes⟩ =
        head ++ '$' :: '{' :: (hole.1 ++ '}' :: text ⟨hole.2, holes⟩) := by
      simp [text]
    rw [htext, ofText_append hhead, ofText_hole hhole, hrest, List.append_nil]
    intro c hc
    cases hc
    rfl

theorem Proper.unclosed?_eq_none {s : Source} (h : s.Proper) : s.unclosed? = none := by
  rw [unclosed?_eq_none_iff]
  refine h.fragments _ ?_
  rw [Source.fragments, List.getLast?_eq_some_getLast (List.cons_ne_nil _ _), Option.getD_some]
  exact List.getLast_mem _

/-- Splitting and joining are inverse to each other: a text without an open placeholder is split
into a source exactly when the source is proper and joins to the text. -/
theorem ofText_eq_iff {s : Source} :
    ofText t = s ∧ s.unclosed? = none ↔ s.text = t ∧ s.Proper := by
  constructor
  · rintro ⟨rfl, h⟩
    exact ⟨text_ofText t, proper_ofText h⟩
  · rintro ⟨rfl, h⟩
    exact ⟨h.ofText_text, h.unclosed?_eq_none⟩

/-! ## Splitting bytes -/

/-- Cut behind the byte of the brace that closes a placeholder in which `depth` more are open. -/
def closeBytes? (depth : Nat) : List UInt8 → Option (List UInt8 × List UInt8)
  | [] => none
  | b :: bs =>
    if b = 0x7B then (closeBytes? (depth + 1) bs).map fun p => (b :: p.1, p.2)
    else if b = 0x7D then
      if depth = 0 then some ([], bs)
      else (closeBytes? (depth - 1) bs).map fun p => (b :: p.1, p.2)
    else (closeBytes? depth bs).map fun p => (b :: p.1, p.2)

theorem length_lt_of_closeBytes? {depth : Nat} {bs inside rest : List UInt8}
    (h : closeBytes? depth bs = some (inside, rest)) : rest.length < bs.length := by
  induction bs generalizing depth inside with
  | nil => cases h
  | cons b bs ih =>
    have hlater {depth : Nat} (h : (closeBytes? depth bs).map (fun p => (b :: p.1, p.2)) =
        some (inside, rest)) : rest.length < (b :: bs).length := by
      simp only [Option.map_eq_some_iff, Prod.mk.injEq] at h
      obtain ⟨⟨i, r⟩, hi, -, rfl⟩ := h
      exact Nat.lt_succ_of_lt (ih hi)
    rw [closeBytes?] at h
    split at h
    · exact hlater h
    split at h
    · split at h
      · cases h
        exact Nat.lt_succ_self _
      · exact hlater h
    · exact hlater h

/-- Split at placeholders, looking at bytes only. -/
def splitBytes (bs : List UInt8) : List UInt8 × List (List UInt8 × List UInt8) :=
  match bs with
  | [] => ([], [])
  | b :: bs =>
    if b = 0x24 ∧ bs.head? = some 0x7B then
      match _h : closeBytes? 0 bs.tail with
      | none => (b :: bs, [])
      | some (inside, rest) =>
        let p := splitBytes rest
        ([], (inside, p.1) :: p.2)
    else
      let p := splitBytes bs
      (b :: p.1, p.2)
termination_by bs.length
decreasing_by
  · have hlength := length_lt_of_closeBytes? _h
    rw [List.length_tail] at hlength
    rw [List.length_cons]
    omega
  · exact Nat.lt_succ_self _

/-- The bytes of the pieces of a source. -/
def pieces (s : Source) : List UInt8 × List (List UInt8 × List UInt8) :=
  (Text.utf8 s.head, s.holes.map fun hole => (Text.utf8 hole.1, Text.utf8 hole.2))

theorem closeBytes?_append {depth : Nat} {lead : List UInt8}
    (h : ∀ b ∈ lead, b ≠ 0x7B ∧ b ≠ 0x7D) (bs : List UInt8) :
    closeBytes? depth (lead ++ bs) =
      (closeBytes? depth bs).map fun p => (lead ++ p.1, p.2) := by
  induction lead with
  | nil => simp
  | cons b lead ih =>
    rw [List.forall_mem_cons] at h
    rw [List.cons_append, closeBytes?, if_neg h.1.1, if_neg h.1.2, ih h.2, Option.map_map]
    rfl

theorem splitBytes_append {lead : List UInt8} (h : ∀ b ∈ lead, b ≠ 0x24) (bs : List UInt8) :
    splitBytes (lead ++ bs) = (lead ++ (splitBytes bs).1, (splitBytes bs).2) := by
  induction lead with
  | nil => rfl
  | cons b lead ih =>
    rw [List.forall_mem_cons] at h
    rw [List.cons_append, splitBytes, if_neg fun hmark => h.1 hmark.1, ih h.2]
    rfl

/-- The closing brace is found where it stands, whatever the bytes of the other characters are. -/
theorem closeBytes?_utf8 (depth : Nat) (t : Text) : closeBytes? depth (Text.utf8 t) =
    (close? depth t).map fun p => (Text.utf8 p.1, Text.utf8 p.2) := by
  fun_induction close? depth t with
  | case1 => rfl
  | case2 depth t ih =>
    have hbytes : Text.utf8 ('{' :: t) = 0x7B :: Text.utf8 t := rfl
    rw [hbytes, closeBytes?, if_pos rfl, ih, Option.map_map, Option.map_map]
    rfl
  | case3 t => rfl
  | case4 t depth ih =>
    have hbytes : Text.utf8 ('}' :: t) = 0x7D :: Text.utf8 t := rfl
    rw [hbytes, closeBytes?, if_neg (by decide), if_pos rfl, if_neg (Nat.succ_ne_zero depth),
      Nat.succ_sub_one, ih, Option.map_map, Option.map_map]
    rfl
  | case5 depth c t hopen hclose ih =>
    have hplain : ∀ b ∈ String.utf8EncodeChar c, b ≠ 0x7B ∧ b ≠ 0x7D := by
      intro b hb
      constructor
      · exact Text.ne_of_mem_utf8EncodeChar (by decide) rfl hopen hb
      · exact Text.ne_of_mem_utf8EncodeChar (by decide) rfl hclose hb
    rw [Text.utf8_cons, closeBytes?_append hplain, ih, Option.map_map, Option.map_map]
    rfl

/-- No character is cut: splitting the bytes of a text gives the bytes of its pieces. -/
theorem splitBytes_utf8 (t : Text) : splitBytes (Text.utf8 t) = (ofText t).pieces := by
  fun_induction ofText t with
  | case1 => simp [splitBytes, pieces]
  | case2 t hnone =>
    have hbytes : Text.utf8 ('$' :: '{' :: t) = 0x24 :: 0x7B :: Text.utf8 t := rfl
    have hclose := closeBytes?_utf8 0 t
    rw [hnone, Option.map_none] at hclose
    rw [hbytes, splitBytes, if_pos ⟨rfl, rfl⟩]
    split
    · rfl
    · next hsome =>
      rw [List.tail_cons, hclose] at hsome
      cases hsome
  | case3 t inside rest hsome s ih =>
    have hbytes : Text.utf8 ('$' :: '{' :: t) = 0x24 :: 0x7B :: Text.utf8 t := rfl
    have hclose := closeBytes?_utf8 0 t
    rw [hsome, Option.map_some] at hclose
    rw [hbytes, splitBytes, if_pos ⟨rfl, rfl⟩]
    split
    · next hnone =>
      rw [List.tail_cons, hclose] at hnone
      cases hnone
    · next i r hsome =>
      rw [List.tail_cons, hclose] at hsome
      cases hsome
      rw [ih]
      rfl
  | case4 c t hhole ih =>
    by_cases hc : c = '$'
    · subst hc
      have hbytes : Text.utf8 ('$' :: t) = 0x24 :: Text.utf8 t := rfl
      have hnext : (Text.utf8 t).head? ≠ some 0x7B := by
        intro hhead
        obtain ⟨d, hd, hbrace⟩ := Text.head?_of_head?_utf8 (by decide) hhead
        obtain ⟨u, rfl⟩ := List.head?_eq_some_iff.mp hd
        obtain rfl : d = '{' := Char.toNat_inj.mp hbrace
        exact hhole u rfl rfl
      rw [hbytes, splitBytes, if_neg fun hmark => hnext hmark.2, ih]
      rfl
    · have hplain : ∀ b ∈ String.utf8EncodeChar c, b ≠ 0x24 := by
        intro b hb
        exact Text.ne_of_mem_utf8EncodeChar (by decide) rfl hc hb
      rw [Text.utf8_cons, splitBytes_append hplain, ih]
      rfl

/-! ## Places -/

/-- The text around a fragment, and where the fragment starts. -/
theorem exists_lead {s : Source} (start : Nat) {i : Nat} {f : Text} (h : s.fragments[i]? = some f) :
    ∃ lead rest, s.text = lead ++ (f ++ rest) ∧
      (startsFrom start s.head s.holes)[i]? = some (start + Text.bytes lead) := by
  obtain ⟨head, holes⟩ := s
  induction holes generalizing head start i with
  | nil =>
    rw [fragments, List.map_nil, List.getElem?_singleton] at h
    split at h
    · next hi =>
      cases h
      subst hi
      exact ⟨[], [], by simp [text], rfl⟩
    · cases h
  | cons hole holes ih =>
    cases i with
    | zero =>
      cases h
      exact ⟨[], _, rfl, rfl⟩
    | succ i =>
      obtain ⟨lead, rest, htext, hstart⟩ :=
        ih (start + Text.bytes head + Text.bytes hole.1 + 3) hole.2 (i := i) h
      refine ⟨head ++ '$' :: '{' :: (hole.1 ++ '}' :: lead), rest, ?_, ?_⟩
      · have hrest : text ⟨head, hole :: holes⟩ =
            head ++ '$' :: '{' :: (hole.1 ++ '}' :: text ⟨hole.2, holes⟩) := by
          simp [text]
        rw [hrest, htext]
        simp
      · have hthree : Char.utf8Size '$' + Char.utf8Size '{' + Char.utf8Size '}' = 3 := rfl
        have hbytes : start + Text.bytes (head ++ '$' :: '{' :: (hole.1 ++ '}' :: lead)) =
            start + Text.bytes head + Text.bytes hole.1 + 3 + Text.bytes lead := by
          simp only [Text.bytes_append, Text.bytes_cons]
          omega
        rw [startsFrom, List.getElem?_cons_succ, hstart, hbytes]

/-- A place inside its fragment is moved to where the fragment starts. -/
theorem absoluteSpan_eq {s : Source} {location : Location} {f : Text}
    (h : s.fragments[location.fragment]? = some f) (hspan : location.span.start ≤ location.span.stop)
    (hstop : location.span.stop ≤ Text.bytes f) :
    ∃ lead rest, s.text = lead ++ (f ++ rest) ∧ s.absoluteSpan location =
      ⟨Text.bytes lead + location.span.start, Text.bytes lead + location.span.stop⟩ := by
  obtain ⟨lead, rest, htext, hstart⟩ := exists_lead 0 h
  rw [Nat.zero_add] at hstart
  refine ⟨lead, rest, htext, ?_⟩
  have hlength : Text.bytes lead + location.span.stop ≤ Text.bytes s.text := by
    rw [htext, Text.bytes_append, Text.bytes_append]
    omega
  rw [absoluteSpan, starts, hstart]
  simp only [Option.getD_some]
  rw [Nat.min_eq_left hlength, Nat.min_eq_left (Nat.add_le_add_left hspan _)]

/-- The bytes of a place in a fragment are those of the place in the text. -/
theorem cut_absoluteSpan {s : Source} {location : Location} {f : Text}
    (h : s.fragments[location.fragment]? = some f) (hspan : location.span.start ≤ location.span.stop)
    (hstop : location.span.stop ≤ Text.bytes f) :
    (s.absoluteSpan location).cut (Text.utf8 s.text) = location.span.cut (Text.utf8 f) := by
  obtain ⟨lead, rest, htext, habsolute⟩ := absoluteSpan_eq h hspan hstop
  have hlead : (Text.utf8 lead).length = Text.bytes lead := Text.length_utf8 lead
  have hf : (Text.utf8 f).length = Text.bytes f := Text.length_utf8 f
  have hwidth : Text.bytes lead + location.span.stop - (Text.bytes lead + location.span.start) =
      location.span.stop - location.span.start := Nat.add_sub_add_left _ _ _
  rw [habsolute, Span.cut, Span.cut, htext, Text.utf8_append, Text.utf8_append, hwidth, ← hlead,
    ← List.drop_drop, List.drop_left, List.drop_append_of_le_length (by omega),
    List.take_append_of_le_length]
  rw [List.length_drop]
  omega

/-- A place in a fragment holds the same characters as the place in the text. -/
theorem holds_absoluteSpan {s : Source} {location : Location} {f : Text}
    (h : s.fragments[location.fragment]? = some f) (hspan : location.span.start ≤ location.span.stop)
    (hstop : location.span.stop ≤ Text.bytes f) (inside : Text) :
    (s.absoluteSpan location).Holds s.text inside ↔ location.span.Holds f inside := by
  obtain ⟨lead, rest, htext, habsolute⟩ := absoluteSpan_eq h hspan hstop
  rw [habsolute, htext]
  constructor
  · rintro ⟨before, after, hsplit, hplace⟩
    obtain ⟨hstart, hend⟩ := Span.mk.inj hplace
    -- the stretch starts behind `lead` and ends before `rest`
    have hlead : lead <+: before :=
      Text.prefix_of_bytes_le (List.prefix_append _ _) ⟨_, hsplit.symm⟩ (by omega)
    obtain ⟨before, rfl⟩ := hlead
    rw [Text.bytes_append] at hstart hend
    rw [List.append_assoc, List.append_right_inj, ← List.append_assoc before] at hsplit
    have hinside : before ++ inside <+: f := by
      refine Text.prefix_of_bytes_le ⟨_, hsplit.symm⟩ (List.prefix_append f rest) ?_
      rw [Text.bytes_append]
      omega
    obtain ⟨after, rfl⟩ := hinside
    have hfirst : location.span.start = Text.bytes before := by omega
    have hlast : location.span.stop = Text.bytes before + Text.bytes inside := by omega
    exact ⟨before, after, List.append_assoc _ _ _, by rw [← hlast, ← hfirst]⟩
  · rintro ⟨before, after, rfl, hplace⟩
    refine ⟨lead ++ before, after ++ rest, by simp, ?_⟩
    rw [hplace, Text.bytes_append, Nat.add_assoc]

/-- Splitting and joining are inverse. Splitting cuts between characters, as splitting the bytes
does, and joining gives back the text. A text that leaves no placeholder open is split into a source
exactly when the source joins to the text, opens no placeholder in a static text and has balanced
braces in its placeholders. A place inside a fragment is mapped to the place in the text that holds
the same bytes and the same characters. -/
theorem split_join_inverse (t : Text) :
    splitBytes (Text.utf8 t) = (ofText t).pieces ∧ (ofText t).text = t ∧
      (∀ s : Source, ofText t = s ∧ s.unclosed? = none ↔ s.text = t ∧ s.Proper) ∧
      ∀ location f, (ofText t).fragments[location.fragment]? = some f →
        location.span.start ≤ location.span.stop → location.span.stop ≤ Text.bytes f →
          ((ofText t).absoluteSpan location).cut (Text.utf8 t) =
            location.span.cut (Text.utf8 f) ∧
          ∀ inside, ((ofText t).absoluteSpan location).Holds t inside ↔
            location.span.Holds f inside := by
  have htext := text_ofText t
  refine ⟨splitBytes_utf8 t, htext, fun s => ofText_eq_iff, fun location f hf hspan hstop => ?_⟩
  have hcut := cut_absoluteSpan hf hspan hstop
  have hholds := holds_absoluteSpan hf hspan hstop
  rw [htext] at hcut hholds
  exact ⟨hcut, hholds⟩

/-- Nested braces, a dollar sign at the end of a static text and characters of several bytes. -/
theorem split_join_inverse_nested :
    (Source.mk "é".toList [(" {x} ".toList, "ü$".toList), ([], [])]).Proper ∧
      ((ofText "é${ {x} }ü$${}".toList).absoluteSpan ⟨1, ⟨0, 2⟩⟩).Holds
        "é${ {x} }ü$${}".toList "ü".toList :=
  ⟨(((split_join_inverse "é${ {x} }ü$${}".toList).2.2.1 _).mp ⟨by decide +kernel, rfl⟩).2,
    (((split_join_inverse "é${ {x} }ü$${}".toList).2.2.2 ⟨1, ⟨0, 2⟩⟩ "ü$".toList
      (by decide +kernel) (by decide) (by decide)).2 "ü".toList).mpr ⟨[], ['$'], rfl, rfl⟩⟩

end Source

end LiveMarkup
