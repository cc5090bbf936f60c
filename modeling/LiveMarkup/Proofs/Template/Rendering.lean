import LiveMarkup.Proofs.Template.Scanning
import LiveMarkup.Proofs.Template.Tiles

/-!
# Rendering stencils

The template that comes of the fragments of a stencil, and what it resolves to. `Reads` says that
the rest of a written-out stencil is scanned without error and resolves to a given text; the lemmas
add one piece in front of it, so that a whole stencil is read by recursion on it. What a value may
be is left open: `Fills` says what has to be known about it.
-/

namespace LiveMarkup

open Value (Slot)

/-! ## Parts -/

namespace Value

/-- What a slot writes: `value` into attribute values and `text` into the text of elements. -/
structure Slot.Fills (s : Slot) (value text : Text) : Prop where
  value : ∀ part, ∃ v, applied part s.value = .ok v ∧ attributePiece part v = .ok (some value)
  text : ∀ tag, PlainTag tag → s.node tag = .ok text

/-- A merged attribute value is its literals with what the slots write between them. -/
theorem attributeValue_eq {α : Type} {slot : α → Slot} {value text : α → Text}
    (h : ∀ a, (slot a).Fills (value a) (text a)) (part : Part) (head : Text)
    (tail : List (α × Text)) :
    attributeValue part (head :: tail.map Prod.snd) (tail.map fun p => (slot p.1).value) =
      .ok (some (head ++ Run.fillTail value tail)) := by
  induction tail generalizing head with
  | nil => simp [attributeValue, Run.fillTail]
  | cons p tail ih =>
    obtain ⟨v, happlied, hpiece⟩ := (h p.1).value part
    simp only [List.map_cons, attributeValue, happlied, bind, Except.bind, hpiece, ih]
    simp [Run.fillTail, pure, Except.pure]

/-- A tile takes its slots off the front. -/
theorem tilesText_cons {config : Config} {total taken : Nat} {part : Part} {behind text body : Text}
    {tiles : List (Part × Text)} {slots others : List Slot} (hlength : slots.length = part.segments)
    (htext : partText config part slots = .ok text)
    (hrest : tilesText config total (taken + part.segments) tiles others = .ok body) :
    tilesText config total taken ((part, behind) :: tiles) (slots ++ others) =
      .ok (text ++ (behind ++ body)) := by
  have henough : ¬(slots ++ others).length < part.segments := by
    rw [List.length_append]
    omega
  rw [tilesText, if_neg henough, ← hlength, List.take_left, List.drop_left, htext, hlength, hrest]
  rfl

end Value

/-! ## Fragments -/

namespace Piece

variable {α : Type}

theorem cutAt?_eq_none {c : Char} {t : Text} (h : c ∉ t) : Text.cutAt? c t = none := by
  induction t with
  | nil => rfl
  | cons d t ih =>
    obtain ⟨hd, ht⟩ := not_or.mp (mt List.mem_cons.mpr h)
    simp [Text.cutAt?, Ne.symm hd, ih ht]

/-- A value that goes on over holes ends at its quote. -/
theorem quoted?_cut {q : Char} {tail : List (α × Text)} (hne : tail ≠ [])
    (htail : ∀ p ∈ tail, q ∉ p.2) (ps : List (Piece α)) :
    Template.quoted? q (cut (Run.tailPieces tail ++ .literal [q] :: ps)).2 =
      some (tail.length - 1, tail.map Prod.snd, cut ps) := by
  induction tail with
  | nil => contradiction
  | cons p tail ih =>
    rw [List.forall_mem_cons] at htail
    cases tail with
    | nil => simp [Run.tailPieces, cut, Template.quoted?, Text.cutAt?_append htail.1]
    | cons q tail =>
      have hrest := ih (List.cons_ne_nil _ _) htail.2
      simp only [Run.tailPieces, List.flatMap_cons, List.cons_append, List.nil_append, cut,
        List.append_nil, Template.quoted?, cutAt?_eq_none htail.1] at hrest ⊢
      rw [hrest]
      rfl

end Piece

namespace Stencil

variable {α : Type} (config : Config) (slot : α → Slot)

/-- The stretch `pre` and the pieces behind it are scanned from `cx` without error, and the template
resolves to `pre` and `out`. -/
def Reads (cx : ScanContext) (pre : Text) (ps : List (Piece α)) (out : Text) : Prop :=
  ∃ t, Template.Scans cx (pre ++ (Piece.cut ps).1) (Piece.cut ps).2 t ∧
    Template.segments t.tiles = (Piece.labels ps).length ∧
    ∀ total taken, ∃ body,
      Value.tilesText config total taken t.tiles ((Piece.labels ps).map slot) = .ok body ∧
        t.head ++ body = pre ++ out

/-- The pieces are read wherever a text goes on. -/
def ReadsInText (ps : List (Piece α)) (out : Text) : Prop :=
  ∀ cx pre, ScanContext.Outside cx pre → Reads config slot cx pre ps out

/-- The pieces are read wherever an open tag goes on. -/
def ReadsInTag (ps : List (Piece α)) (out : Text) : Prop :=
  ∀ cx pre, ScanContext.Inside cx pre → Reads config slot cx pre ps out

variable {config slot}

theorem reads_nil (cx : ScanContext) (pre : Text) : Reads config slot cx pre [] [] := by
  refine ⟨⟨pre, []⟩, ?_, rfl, fun total taken => ⟨[], rfl, rfl⟩⟩
  rw [Piece.cut, List.append_nil]
  exact .last

theorem Reads.literal {cx : ScanContext} {pre s : Text} {ps : List (Piece α)} {out : Text}
    (h : Reads config slot cx (pre ++ s) ps out) :
    Reads config slot cx pre (.literal s :: ps) (s ++ out) := by
  simpa only [Reads, Piece.cut, Piece.labels, List.append_assoc] using h

/-- A hole in a text. -/
theorem Reads.hole {cx : ScanContext} {pre tag : Text} {a : α} {value text : Text}
    {ps : List (Piece α)} {out : Text} (hplain : PlainTag tag)
    (hadvance : cx.advance pre = ⟨false, false, tag⟩) (hslot : (slot a).Fills value text)
    (h : Reads config slot ⟨false, false, tag⟩ [] ps out) :
    Reads config slot cx pre (.hole a :: ps) (text ++ out) := by
  obtain ⟨t, ht, hcount, hbody⟩ := h
  refine ⟨⟨pre, (.text tag, t.head) :: t.tiles⟩, ?_, ?_, fun total taken => ?_⟩
  · rw [← hadvance, List.nil_append] at ht
    have hscans := Template.Scans.text (by rw [hadvance]) ht
    rw [hadvance] at hscans
    rw [Piece.cut, List.append_nil]
    exact hscans
  · rw [Template.segments_cons, Piece.labels, List.length_cons, ← hcount, Nat.add_comm]
    rfl
  · obtain ⟨body, hbody, heq⟩ := hbody total (taken + 1)
    have hpart : Value.partText config (.text tag) [slot a] = .ok text := by
      simp [Value.partText, hslot.text tag hplain, bind, Except.bind, pure, Except.pure, Except.map]
    refine ⟨text ++ (t.head ++ body), Value.tilesText_cons rfl hpart hbody, ?_⟩
    rw [heq, List.nil_append]

/-- A tail of holes, cut, has no text before its first hole. -/
theorem cut_tailPieces_fst {tail : List (α × Text)} (hne : tail ≠ []) (ps : List (Piece α)) :
    (Piece.cut (Run.tailPieces tail ++ ps)).1 = [] := by
  cases tail with
  | nil => contradiction
  | cons p tail => rfl

theorem labels_tailPieces (tail : List (α × Text)) :
    Piece.labels (Run.tailPieces tail) = tail.map Prod.fst := by
  induction tail with
  | nil => rfl
  | cons p tail ih => simpa [Run.tailPieces, Piece.labels] using ih

/-- A name has no sigil. -/
theorem ofName_text (name : Name) : BindingKind.ofName name.text = (.attribute, name.text) := by
  obtain ⟨c, hc, hlower⟩ := name.start
  unfold BindingKind.ofName
  split
  · next heq => rw [heq] at hc; cases hc; exact absurd hlower (by decide)
  · next heq => rw [heq] at hc; cases hc; exact absurd hlower (by decide)
  · next heq => rw [heq] at hc; cases hc; exact absurd hlower (by decide)
  · rfl

/-- The binding that an attribute with holes makes. -/
theorem bind_of_name (name : Name) (before tag head : Text) (literals : List Text)
    (hlength : 0 < literals.length) (suffix : Text) :
    Template.bind ⟨before, ' ', name.text, suffix⟩ tag head literals hlength =
      ⟨.attribute, name.text, head :: literals, tag, ' ', Nat.succ_le_succ hlength⟩ := by
  simp [Template.bind, ofName_text]

/-- The binding of an attribute with holes, behind a tag that is open. -/
def attributeBinding (name : Name) (tag head : Text) (tail : List (α × Text)) (hne : tail ≠ []) :
    Binding :=
  ⟨.attribute, name.text, head :: tail.map Prod.snd, tag, ' ',
    Nat.succ_le_succ (List.length_pos_iff.mpr (mt List.map_eq_nil_iff.mp hne))⟩

theorem segments_attributeBinding (name : Name) (tag head : Text) {tail : List (α × Text)}
    (hne : tail ≠ []) :
    Part.segments (.binding (attributeBinding name tag head tail hne)) = tail.length := by
  simp [Part.segments, attributeBinding]

/-- An attribute with holes is written out with what its slots write. -/
theorem partText_attributeBinding {value text : α → Text}
    (hslot : ∀ a, (slot a).Fills (value a) (text a)) (name : Name) (tag head : Text)
    {tail : List (α × Text)} (hne : tail ≠ []) :
    Value.partText config (.binding (attributeBinding name tag head tail hne))
      ((tail.map Prod.fst).map slot) =
        .ok (' ' :: (name.text ++ '=' :: '"' :: (head ++ Run.fillTail value tail ++ ['"']))) := by
  have hvalue := Value.attributeValue_eq hslot (.binding (attributeBinding name tag head tail hne))
    head tail
  simp only [Value.partText, Value.bindingText, attributeBinding, List.map_map,
    Function.comp_def] at hvalue ⊢
  rw [hvalue]
  rfl

/-- An attribute with holes makes one tile, and the scan goes on behind its quote. -/
theorem scans_attribute {cx : ScanContext} {pre tag head : Text} {name : Name}
    (hhead : '"' ∉ head) {tail : List (α × Text)} (hne : tail ≠ []) (htail : ∀ p ∈ tail, '"' ∉ p.2)
    (hquiet : OpenAttribute.Quiet pre)
    (hadvance : cx.advance (pre ++ ' ' :: (name.text ++ '=' :: '"' :: head)) = ⟨true, false, tag⟩)
    {ps : List (Piece α)} {t : Tiling}
    (ht : Template.Scans ⟨true, false, tag⟩ (Piece.cut ps).1 (Piece.cut ps).2 t) :
    Template.Scans cx (pre ++ ' ' :: (name.text ++ '=' :: '"' :: head))
      (Piece.cut (Run.tailPieces tail ++ .literal ['"'] :: ps)).2
      ⟨pre, (.binding (attributeBinding name tag head tail hne), t.head) :: t.tiles⟩ := by
  have hquoted := Piece.quoted?_cut hne htail ps
  have hfound : OpenAttribute.ofText? (pre ++ ' ' :: (name.text ++ '=' :: '"' :: head)) =
      some ⟨pre, ' ', name.text, '=' :: '"' :: head⟩ := by
    have hopen := hquiet [] name.text ('"' :: head) List.not_mem_nil name.isKey
    rw [OpenAttribute.ofText?_open name.isKey hhead] at hopen
    simpa [OpenAttribute.behind] using hopen
  generalize hrest : (Piece.cut (Run.tailPieces tail ++ .literal ['"'] :: ps)).2 = rest at hquoted
  cases rest with
  | nil => cases hquoted
  | cons next others =>
    have hone : (BindingKind.ofName name.text).1 = .boolean → tail.length - 1 = 0 := by
      intro hkind
      rw [ofName_text] at hkind
      cases hkind
    rw [← hadvance] at ht
    have hscans := Template.Scans.quoted (by rw [hadvance]) hfound (OpenAttribute.quote?_open ..)
      hquoted hone ht
    simp only [hadvance, bind_of_name] at hscans
    exact hscans

/-- An attribute with holes. -/
theorem Reads.attribute {cx : ScanContext} {pre tag : Text} {value text : α → Text}
    (hslot : ∀ a, (slot a).Fills (value a) (text a)) (name : Name) {head : Text}
    (hhead : '"' ∉ head) {tail : List (α × Text)} (hne : tail ≠ []) (htail : ∀ p ∈ tail, '"' ∉ p.2)
    (hquiet : OpenAttribute.Quiet pre)
    (hadvance : cx.advance (pre ++ ' ' :: (name.text ++ '=' :: '"' :: head)) = ⟨true, false, tag⟩)
    {ps : List (Piece α)} {out : Text} (h : Reads config slot ⟨true, false, tag⟩ [] ps out) :
    Reads config slot cx (pre ++ ' ' :: (name.text ++ '=' :: '"' :: head))
      (Run.tailPieces tail ++ .literal ['"'] :: ps) (Run.fillTail value tail ++ '"' :: out) := by
  obtain ⟨t, ht, hcount, hbody⟩ := h
  have hsegments := segments_attributeBinding name tag head hne
  refine ⟨⟨pre, (.binding (attributeBinding name tag head tail hne), t.head) :: t.tiles⟩, ?_, ?_,
    fun total taken => ?_⟩
  · rw [cut_tailPieces_fst hne, List.append_nil]
    exact scans_attribute hhead hne htail hquiet hadvance ht
  · rw [Template.segments_cons, Piece.labels_append, List.length_append, labels_tailPieces,
      Piece.labels, ← hcount, hsegments, List.length_map]
  · obtain ⟨body, hbody, heq⟩ := hbody total (taken + tail.length)
    have hlength : ((tail.map Prod.fst).map slot).length =
        Part.segments (.binding (attributeBinding name tag head tail hne)) := by
      rw [hsegments, List.length_map, List.length_map]
    rw [← hsegments] at hbody
    rw [Piece.labels_append, labels_tailPieces, List.map_append]
    refine ⟨_, Value.tilesText_cons hlength
      (partText_attributeBinding hslot name tag head hne) hbody, ?_⟩
    rw [heq]
    simp

/-! ## Stencils -/

section Stencils

variable {value text : α → Text} {ps : List (Piece α)} {out : Text}

theorem ReadsInText.literal {s : Text} (hs : ∀ c ∈ s, isBarredInText c = false)
    (h : ReadsInText config slot ps out) : ReadsInText config slot (.literal s :: ps) (s ++ out) :=
  fun cx _ hpre => (h cx _ (hpre.text hs)).literal

theorem ReadsInText.hole {a : α} (hslot : (slot a).Fills (value a) (text a))
    (h : ReadsInText config slot ps out) :
    ReadsInText config slot (.hole a :: ps) (text a ++ out) := by
  intro cx pre hpre
  obtain ⟨tag, htag, hadvance⟩ := hpre.advance
  exact Reads.hole htag hadvance hslot (h _ _ (ScanContext.outside_nil htag))

theorem ReadsInText.tailPieces (hslot : ∀ a, (slot a).Fills (value a) (text a))
    {tail : List (α × Text)} (htail : ∀ p ∈ tail, ∀ c ∈ p.2, isBarredInText c = false)
    (h : ReadsInText config slot ps out) :
    ReadsInText config slot (Run.tailPieces tail ++ ps) (Run.fillTail text tail ++ out) := by
  induction tail with
  | nil => exact h
  | cons p tail ih =>
    rw [List.forall_mem_cons] at htail
    have hliteral := (ih htail.2).literal htail.1
    simpa [Run.tailPieces, Run.fillTail] using hliteral.hole (hslot p.1)

/-- A run of text. -/
theorem ReadsInText.run (hslot : ∀ a, (slot a).Fills (value a) (text a))
    (r : Run α isBarredInText) (h : ReadsInText config slot ps out) :
    ReadsInText config slot (r.pieces ++ ps) (r.fill text ++ out) := by
  have htail := h.tailPieces hslot r.tail_plain
  simpa [Run.pieces, Run.fill] using htail.literal r.head_plain

theorem ReadsInText.openTag (name : ElementName) (h : ReadsInTag config slot ps out) :
    ReadsInText config slot (.literal ('<' :: name.text) :: ps) ('<' :: name.text ++ out) :=
  fun cx _ hpre => (h cx _ (hpre.openTag name)).literal

theorem ReadsInTag.close (h : ReadsInText config slot ps out) :
    ReadsInTag config slot (.literal ['>'] :: ps) ('>' :: out) :=
  fun cx _ hpre => (h cx _ hpre.close).literal

theorem ReadsInText.closeTag (name : Name) (h : ReadsInText config slot ps out) :
    ReadsInText config slot (.literal (Node.closeTag name.text) :: ps)
      (Node.closeTag name.text ++ out) :=
  fun cx _ hpre => (h cx _ (hpre.closeTag name)).literal

theorem not_mem_of_barred {s : Text} (h : ∀ c ∈ s, isBarredInValue c = false) : '"' ∉ s :=
  fun hmem => absurd (h _ hmem) (by decide)

/-- An attribute, with holes in its value or without. -/
theorem ReadsInTag.attribute (hslot : ∀ a, (slot a).Fills (value a) (text a))
    (a : Name × Run α isBarredInValue) (h : ReadsInTag config slot ps out) :
    ReadsInTag config slot (attributePieces a ++ ps)
      (' ' :: (a.1.text ++ '=' :: '"' :: (a.2.fill value ++ ['"'])) ++ out) := by
  obtain ⟨name, run⟩ := a
  intro cx pre hpre
  by_cases htail : run.tail = []
  · have hattribute := h cx _ (hpre.attribute name run.head_plain)
    have hreads : Reads config slot cx pre (.literal (' ' :: (name.text ++ ['=', '"'])) ::
        .literal run.head :: .literal ['"'] :: ps)
        (' ' :: (name.text ++ ['=', '"']) ++ (run.head ++ (['"'] ++ out))) := by
      refine Reads.literal (Reads.literal (Reads.literal ?_))
      simpa using hattribute
    simpa [attributePieces, Run.pieces, Run.fill, Run.tailPieces, Run.fillTail, htail] using hreads
  · have hplain : ∀ c ∈ ' ' :: (name.text ++ '=' :: '"' :: run.head), c ≠ '<' ∧ c ≠ '>' := by
      intro c hc
      simp only [List.mem_cons, List.mem_append] at hc
      rcases hc with rfl | hc | rfl | rfl | hc
      · decide
      · exact name.no_brackets c hc
      · decide
      · decide
      · have := run.head_plain c hc
        simp_all [isBarredInValue, isBarredInText]
    obtain ⟨tag, htag, hadvance⟩ := hpre.advance (Text.stops_cons.mpr rfl) hplain
    have hafter := h _ _ (ScanContext.inside_nil htag)
    obtain ⟨_, _, hscanned, _⟩ := hpre
    have hattribute := hafter.attribute hslot name (not_mem_of_barred run.head_plain) htail
      (fun p hp => not_mem_of_barred (run.tail_plain p hp)) hscanned.quiet hadvance
    have hreads : Reads config slot cx pre (.literal (' ' :: (name.text ++ ['=', '"'])) ::
        .literal run.head :: (Run.tailPieces run.tail ++ .literal ['"'] :: ps))
        (' ' :: (name.text ++ ['=', '"']) ++
          (run.head ++ (Run.fillTail value run.tail ++ '"' :: out))) := by
      refine Reads.literal (Reads.literal ?_)
      simpa using hattribute
    simpa [attributePieces, Run.pieces, Run.fill] using hreads

theorem not_mem_fill (hvalue : ∀ a, '"' ∉ value a) (r : Run α isBarredInValue) :
    '"' ∉ r.fill value := by
  intro hmem
  rcases List.mem_append.mp hmem with hmem | hmem
  · exact not_mem_of_barred r.head_plain hmem
  · obtain ⟨p, hp, hmem⟩ := List.mem_flatMap.mp hmem
    rcases List.mem_append.mp hmem with hmem | hmem
    · exact hvalue p.1 hmem
    · exact not_mem_of_barred (r.tail_plain p hp) hmem

/-- What goes into attribute values may stand in double quotes. -/
theorem quotedValue_fill (hvalue : ∀ a, '"' ∉ value a) (r : Run α isBarredInValue) :
    Node.quotedValue (r.fill value) = '"' :: (r.fill value ++ ['"']) := by
  simp [Node.quotedValue, not_mem_fill hvalue r]

theorem ReadsInTag.attributes (hslot : ∀ a, (slot a).Fills (value a) (text a))
    (hvalue : ∀ a, '"' ∉ value a) (entries : List (Name × Run α isBarredInValue))
    (h : ReadsInTag config slot ps out) :
    ReadsInTag config slot (entries.flatMap attributePieces ++ ps)
      ((entries.map fun a => (a.1.text, a.2.fill value)).flatMap Node.attributeText ++ out) := by
  induction entries with
  | nil => exact h
  | cons a entries ih =>
    have hattribute := ih.attribute hslot a
    simpa [Node.attributeText, quotedValue_fill hvalue] using hattribute

/-- A stencil in front of what is read as the text of an element. -/
theorem ReadsInText.stencil (hslot : ∀ a, (slot a).Fills (value a) (text a))
    (hvalue : ∀ a, '"' ∉ value a) (s : Stencil α) (h : ReadsInText config slot ps out) :
    ReadsInText config slot (s.pieces ++ ps) (Node.markupAll (s.fill value text) ++ out) := by
  induction s generalizing ps out with
  | text run => simpa [pieces, fill, Node.markupAll, Node.markup] using h.run hslot run
  | element before name attributes children after ihchildren ihafter =>
    have hafter := (ihafter h).closeTag name.toName
    have hchildren := (ihchildren hafter)
    have htag := ReadsInTag.attributes hslot hvalue attributes.entries (ReadsInTag.close hchildren)
    have hbefore := (ReadsInText.openTag name htag).run hslot before
    simpa [pieces, fill, Node.markupAll, Node.markup, Node.openTag, Node.closeTag,
      AttributeRuns.fill] using hbefore

end Stencils

theorem slotsOf_map {α : Type} (config : Config) (labels : List α) (v : α → Value) :
    Value.slotsOf config (labels.map v) =
      labels.map fun a => ⟨v a, fun tag => Value.nodeText config (v a) false tag⟩ := by
  induction labels with
  | nil => rfl
  | cons a labels ih => simp [Value.slotsOf, ih]

/-- The fragments of a stencil make a template, and this resolves to the markup of the filled
stencil. -/
theorem resolve_fragments {α : Type} (config : Config) (s : Stencil α) {v : α → Value}
    {value text : α → Text}
    (hslot : ∀ a, Slot.Fills ⟨v a, fun tag => Value.nodeText config (v a) false tag⟩
      (value a) (text a))
    (hvalue : ∀ a, '"' ∉ value a) :
    ∃ t, Template.ofFragments s.fragments = .ok t ∧
      TemplateResult.resolve config ⟨.ok t, s.holes.map v⟩ =
        .ok (Node.markupAll (s.fill value text)) := by
  have hnil : ReadsInText config
      (fun a => ⟨v a, fun tag => Value.nodeText config (v a) false tag⟩) [] [] :=
    fun cx pre _ => reads_nil cx pre
  have hreads := hnil.stencil hslot hvalue s {} [] (ScanContext.outside_nil plainTag_nil)
  rw [List.append_nil, List.append_nil] at hreads
  obtain ⟨u, hu, hcount, hbody⟩ := hreads
  have ht : Template.ofFragments s.fragments = .ok u.template := hu.ofFragments_eq
  obtain ⟨body, hbody, hout⟩ := hbody s.holes.length 0
  rw [← slotsOf_map] at hbody
  have hlength : (Value.slotsOf config (s.holes.map v)).length = s.holes.length := by
    rw [slotsOf_map, List.length_map]
  refine ⟨u.template, ht, ?_⟩
  rw [TemplateResult.resolve, Value.templateText_ok, Template.slotCount_eq, Tiling.tiles_template,
    hlength, if_neg fun hne => hne hcount.symm]
  have hresolved : (Value.tilesText config s.holes.length 0 u.tiles
      (Value.slotsOf config (s.holes.map v))).map (u.head ++ ·) = .ok (u.head ++ body) :=
    congrArg (Except.map (u.head ++ ·)) hbody
  exact hresolved.trans (congrArg Except.ok hout)

end Stencil

end LiveMarkup
