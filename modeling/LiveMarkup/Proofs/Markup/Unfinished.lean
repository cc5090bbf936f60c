import LiveMarkup.Proofs.Markup.Apart

/-!
# Pages that stop in a tag

What a document is read as up to a place, told from the text before that place alone. `LeadsTo` goes
with the reader through the tokens of a document, script and style bodies included, to the rest that
it has not taken yet. Where that rest is a tag that is not finished, the text behind it has no say in
what came before (`LeadsTo.append`): whatever follows, the document has the same tokens up to the tag
(`LeadsTo.documentTokens_append`).
-/

namespace LiveMarkup

namespace Node

open Token

/-- Reading `t` as a document makes the tokens and has `rest` before it then. -/
inductive LeadsTo : Text → List Token → Text → Prop
  | refl (t : Text) : LeadsTo t [] t
  | step {c : Char} {t : Text} {r : Reading Token} {tokens : List Token} {rest : Text}
    (h : Steps c t r) (hraw : rawTextEnd? r.token = none) (hrest : LeadsTo r.rest tokens rest) :
    LeadsTo (c :: t) (r.token.toList ++ tokens) rest
  | body {c : Char} {t closing : Text} {r : Reading Token} {tokens : List Token} {rest : Text}
    (h : Steps c t r) (hraw : rawTextEnd? r.token = some closing)
    (hrest : LeadsTo (splitRawText closing r.rest).2 tokens rest) :
    LeadsTo (c :: t)
      (r.token.toList ++ (ofRawText (splitRawText closing r.rest).1 ++ tokens)) rest

variable {c : Char} {t s rest closing : Text} {r : Reading Token} {tokens : List Token}

theorem LeadsTo.documentTokens_eq (h : LeadsTo t tokens rest) :
    documentTokens t = tokens ++ documentTokens rest := by
  induction h with
  | refl t => rfl
  | step h hraw hrest ih => rw [documentTokens_of_steps h hraw, ih, List.append_assoc]
  | body h hraw hrest ih =>
    rw [documentTokens_of_steps_raw h hraw, ih, List.append_assoc, List.append_assoc]

theorem append_of_steps (h : Steps c t r) : r.taken ++ r.rest = c :: t := by
  rw [← eq_of_steps h]
  exact lexer.taken_append_rest c t

/-- The rest stands at the end of the document. -/
theorem LeadsTo.suffix (h : LeadsTo t tokens rest) : rest <:+ t := by
  induction h with
  | refl t => exact List.suffix_refl t
  | step h hraw hrest ih =>
    rw [← append_of_steps h]
    exact ih.trans (List.suffix_append ..)
  | @body c t closing r tokens rest h hraw hrest ih =>
    rw [← append_of_steps h, ← append_splitRawText closing r.rest]
    exact ih.trans ((List.suffix_append ..).trans (List.suffix_append ..))

/-! ## What follows has no say -/

/-- A step that has a `<` behind it does not depend on what follows. -/
theorem steps_append (h : Steps c t r) (hbracket : '<' ∈ r.rest) (s : Text) :
    Steps c (t ++ s) ⟨r.token, r.taken, r.rest ++ s⟩ := by
  cases h with
  | text hc =>
    change '<' ∈ t.dropWhile (· ≠ '<') at hbracket
    have htake : (t ++ s).takeWhile (· ≠ '<') = t.takeWhile (· ≠ '<') ∧
        (t ++ s).dropWhile (· ≠ '<') = t.dropWhile (· ≠ '<') ++ s := by
      have hall : ∀ d ∈ t.takeWhile (· ≠ '<'), (decide (d ≠ '<')) = true :=
        List.all_eq_true.mp List.all_takeWhile
      have hstops : Text.Stops (· ≠ '<') (t.dropWhile (· ≠ '<') ++ s) := by
        obtain ⟨d, u, hdrop⟩ := List.exists_cons_of_ne_nil (List.ne_nil_of_mem hbracket)
        have hd := Text.stops_dropWhile (· ≠ '<') t
        rw [hdrop] at hd ⊢
        exact Text.stops_cons.mpr (Text.stops_cons.mp hd)
      have hsplit : t ++ s = t.takeWhile (· ≠ '<') ++ (t.dropWhile (· ≠ '<') ++ s) := by
        rw [← List.append_assoc, List.takeWhile_append_dropWhile]
      rw [hsplit]
      exact ⟨Text.takeWhile_append_of_stops hall hstops, Text.dropWhile_append_of_stops hall hstops⟩
    have hsteps : Steps c (t ++ s) _ := .text hc
    rwa [htake.1, htake.2] at hsteps
  | @comment t inside body rest hopen hcut =>
    have hbody := Text.not_infix_of_cut? (by simp [commentClose]) hcut
    have ht := Text.eq_append_of_after? hopen
    rw [Text.eq_append_of_cut? hcut] at ht
    have hwhole : '<' :: (t ++ s) = commentOpen ++ (body ++ (commentClose ++ (rest ++ s))) := by
      rw [← List.cons_append, ht]
      simp
    have hinside : Text.after? commentOpen ('<' :: (t ++ s)) =
        some (body ++ (commentClose ++ (rest ++ s))) := by rw [hwhole, Text.after?_append]
    exact .comment hinside (cut?_commentClose hbody _)
  | commentToEnd hopen hcut => cases hbracket
  | tag hstart hend =>
    obtain ⟨body, rfl, hquotes⟩ := eq_append_of_tagEnd?_some hend
    refine .tag (startsTag_append hstart s) ?_
    rw [eq_append_of_tagEnd? hend, List.append_assoc, List.append_assoc, tagEnd?_append hquotes]
    rfl
  | lost hstart hend => cases hbracket
  | lone hnothing =>
    refine .lone ?_
    obtain ⟨u, v, rfl⟩ := List.append_of_mem hbracket
    have hv : AtBracket ('<' :: v) := atBracket_cons.mpr rfl
    have hvs : AtBracket ('<' :: (v ++ s)) := atBracket_cons.mpr rfl
    rw [List.append_assoc, List.cons_append, opensNothing_append hvs]
    rwa [opensNothing_append hv] at hnothing

/-- A body that has its end mark does not depend on what follows. -/
theorem splitRawText_append_right (h : (splitRawText closing t).2 ≠ []) (s : Text) :
    splitRawText closing (t ++ s) =
      ((splitRawText closing t).1, (splitRawText closing t).2 ++ s) := by
  induction t with
  | nil => exact absurd rfl h
  | cons c t ih =>
    by_cases hstart : Text.startsLowered closing (c :: t) = true
    · have hmore := startsLowered_append hstart s
      rw [List.cons_append] at hmore
      rw [List.cons_append, splitRawText, splitRawText, if_pos hstart, if_pos hmore]
      rfl
    · rw [splitRawText, if_neg hstart] at h
      -- the mark that comes later is as long as one that would begin here
      have hlength : closing.length ≤ (Text.lower (c :: t)).length := by
        have hmark := Text.startsLowered_iff.mp (startsLowered_splitRawText closing t h)
        have hshort := length_splitRawText_le closing t
        have hprefix := hmark.length_le
        rw [Text.lower, List.length_map] at hprefix ⊢
        rw [List.length_cons]
        omega
      have hmore : ¬Text.startsLowered closing (c :: (t ++ s)) = true := by
        rw [Text.startsLowered_iff, ← List.cons_append, Text.lower, List.map_append]
        intro hprefix
        refine hstart (Text.startsLowered_iff.mpr ?_)
        exact List.prefix_of_prefix_length_le hprefix (List.prefix_append ..) hlength
      rw [List.cons_append, splitRawText, splitRawText, if_neg hstart, if_neg hmore, ih h]

/-- What a document leads to before a `<` it leads to whatever follows. -/
theorem LeadsTo.append {u : Text} (h : LeadsTo t tokens ('<' :: u)) (s : Text) :
    LeadsTo (t ++ s) tokens ('<' :: u ++ s) := by
  generalize hrest : '<' :: u = rest at h
  induction h with
  | refl t => exact .refl _
  | @step c t r tokens rest h hraw hleads ih =>
    have hbracket := hleads.suffix.subset (hrest ▸ List.mem_cons_self)
    exact .step (r := ⟨r.token, r.taken, r.rest ++ s⟩) (steps_append h hbracket s) hraw (ih hrest)
  | @body c t closing r tokens rest h hraw hleads ih =>
    have hmem := hleads.suffix.subset (hrest ▸ List.mem_cons_self)
    have hbracket : '<' ∈ r.rest := by
      rw [← append_splitRawText closing r.rest]
      exact List.mem_append_right _ hmem
    have hsplit := splitRawText_append_right (List.ne_nil_of_mem hmem) s
    have hmore : LeadsTo (splitRawText closing (r.rest ++ s)).2 tokens (rest ++ s) := by
      rw [hsplit]
      exact ih hrest
    have hbody := LeadsTo.body (steps_append h hbracket s) hraw hmore
    rwa [hsplit] at hbody

/-- Before a tag that is not finished the tokens of a document stay the same, whatever follows. -/
theorem LeadsTo.documentTokens_append {u : Text} (h : LeadsTo t tokens ('<' :: u)) (s : Text) :
    documentTokens (t ++ s) = tokens ++ documentTokens ('<' :: (u ++ s)) :=
  (h.append s).documentTokens_eq

end Node

end LiveMarkup
