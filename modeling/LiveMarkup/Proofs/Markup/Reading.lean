import LiveMarkup.Proofs.Markup.Written

/-!
# What was read

Every token of a document keeps what its kind promises: a comment does not hold its own end, a tag
runs from `<` to a `>` outside quotes. So a head that was read can be written, and a declaration
that was read is read again from what it is written as.
-/

namespace LiveMarkup

/-! ## Attributes -/

namespace AttributeToken

/-- What a token of the inside of a tag satisfies. -/
def Read : AttributeToken → Prop
  | .word t => t ≠ [] ∧ ∀ c ∈ t, isWordChar c = true
  | .quoted t => OneQuote t
  | .equals => True

theorem read_of_step {c : Char} {t : Text} {token : AttributeToken}
    (h : (step c t).token = some token) : token.Read := by
  unfold step at h
  split at h
  · cases h
    trivial
  split at h
  · next hquote =>
    split at h
    · next body rest hcut =>
      cases h
      intro hd hs
      have hmem := Text.not_mem_of_cutAt? hcut
      simp only [Bool.or_eq_true, decide_eq_true_eq] at hquote
      rcases hquote with rfl | rfl
      · exact hmem hd
      · exact hmem hs
    · cases h
  split at h
  · next hc =>
    cases h
    refine ⟨List.cons_ne_nil _ _, fun d hd => ?_⟩
    rcases List.mem_cons.mp hd with rfl | hd
    · exact hc
    · exact List.all_eq_true.mp List.all_takeWhile d hd
  · cases h

end AttributeToken

/-- Every token of a text was made by a step somewhere in it. -/
theorem Lexer.exists_step_of_mem_tokens {α : Type} {l : Lexer α} {t : Text} {token : α}
    (h : token ∈ l.tokens t) : ∃ s c u, t = s ++ c :: u ∧ (l.step c u).token = some token := by
  match t with
  | [] => simp at h
  | c :: t =>
    have := l.length_rest_le c t
    rw [l.tokens_cons, List.mem_append, Option.mem_toList] at h
    rcases h with h | h
    · exact ⟨[], c, t, rfl, h⟩
    · obtain ⟨s, d, u, hrest, hstep⟩ := l.exists_step_of_mem_tokens h
      refine ⟨(l.step c t).taken ++ s, d, u, ?_, hstep⟩
      rw [List.append_assoc, ← hrest, l.taken_append_rest]
termination_by t.length

/-- What every step of a lexer makes, every token of a text satisfies. -/
theorem Lexer.forall_tokens {α : Type} {l : Lexer α} {p : α → Prop}
    (h : ∀ c t token, (l.step c t).token = some token → p token) (t : Text) :
    ∀ token ∈ l.tokens t, p token := by
  intro token hmem
  obtain ⟨_, c, u, -, hstep⟩ := Lexer.exists_step_of_mem_tokens hmem
  exact h c u token hstep

namespace Attributes

theorem writable_of_mem_pairs {tokens : List AttributeToken} (h : ∀ token ∈ tokens, token.Read) :
    ∀ a ∈ pairs tokens, WritableAttribute a := by
  -- A value that is a word holds no quote at all.
  have hword {t : Text} (ht : AttributeToken.Read (.word t)) : OneQuote t := fun hd =>
    absurd (ht.2 _ hd) (by decide)
  have hempty : OneQuote [] := fun hd => nomatch hd
  fun_induction pairs tokens with
  | case1 name value tokens ih =>
    simp only [List.forall_mem_cons] at h ⊢
    exact ⟨⟨h.1.1, h.1.2, hword h.2.2.1⟩, ih h.2.2.2⟩
  | case2 name value tokens ih =>
    simp only [List.forall_mem_cons] at h ⊢
    exact ⟨⟨h.1.1, h.1.2, h.2.2.1⟩, ih h.2.2.2⟩
  | case3 name tokens _ _ ih =>
    simp only [List.forall_mem_cons] at h ⊢
    exact ⟨⟨h.1.1, h.1.2, hempty⟩, ih h.2⟩
  | case4 token tokens _ _ _ ih =>
    exact ih fun token hmem => h token (List.mem_cons_of_mem _ hmem)
  | case5 => simp

theorem writable_of_mem_read {t : Text} {a : Text × Text} (h : a ∈ read t) : WritableAttribute a :=
  writable_of_mem_pairs (Lexer.forall_tokens (fun _ _ _ => AttributeToken.read_of_step) t) a
    (Keyed.mem_of_mem_ofList h)

end Attributes

/-! ## Tokens -/

namespace Token

/-- What a token of a document satisfies. -/
def Read : Token → Prop
  | .comment body => ¬commentClose <:+: body
  | .tag source => ∃ inside, source = '<' :: (inside ++ ['>']) ∧
      startsTag (inside ++ ['>']) = true ∧ quoteAfter? none inside = some none
  | .text _ | .lone => True

/-- What makes a tag the start of one stands before its `>`. -/
theorem startsTag_of_append {inside rest : Text}
    (h : startsTag (inside ++ '>' :: rest) = true) : startsTag (inside ++ ['>']) = true := by
  match inside with
  | [] => simp [startsTag, Text.isAlphanum] at h
  | [a] => by_cases ha : a = '!' <;> simp_all [startsTag]
  | [a, b] => by_cases ha : a = '!' <;> by_cases hb : b = '-' <;> simp_all [startsTag]
  | a :: b :: c :: t => by_cases ha : a = '!' <;> by_cases hb : b = '-' <;> simp_all [startsTag]

theorem read_of_steps {c : Char} {t taken rest : Text} {token : Token}
    (h : Steps c t ⟨some token, taken, rest⟩) : token.Read := by
  cases h with
  | text | lone => trivial
  | comment hopen hcut => exact Text.not_infix_of_cut? (by simp [commentClose]) hcut
  | commentToEnd hopen hcut => exact Text.cut?_eq_none_iff.mp hcut
  | tag hstart hend =>
    obtain ⟨inside, rfl, hquotes⟩ := eq_append_of_tagEnd?_some hend
    rw [eq_append_of_tagEnd? hend, List.append_assoc] at hstart
    exact ⟨inside, rfl, startsTag_of_append hstart, hquotes⟩

end Token

namespace Node

open Token

theorem read_of_mem_documentTokens (t : Text) : ∀ token ∈ documentTokens t, token.Read := by
  match t with
  | [] => simp [documentTokens_nil]
  | c :: t =>
    have hlength : (step c t).rest.length ≤ t.length := lexer.length_rest_le c t
    have hsteps := steps_step c t
    have hfirst : ∀ token, (step c t).token = some token → token.Read := by
      intro token htoken
      generalize step c t = r at hsteps htoken
      rcases r with ⟨_, taken, rest⟩
      cases htoken
      exact read_of_steps hsteps
    intro token hmem
    cases hraw : rawTextEnd? (step c t).token with
    | none =>
      rw [documentTokens_of_steps hsteps hraw, List.mem_append, Option.mem_toList] at hmem
      rcases hmem with hmem | hmem
      · exact hfirst token hmem
      · exact read_of_mem_documentTokens (step c t).rest token hmem
    | some closing =>
      have := length_splitRawText_le closing (step c t).rest
      rw [documentTokens_of_steps_raw hsteps hraw, List.mem_append, List.mem_append,
        Option.mem_toList] at hmem
      rcases hmem with hmem | hmem | hmem
      · exact hfirst token hmem
      · unfold ofRawText at hmem
        split at hmem
        · contradiction
        · rw [List.mem_singleton.mp hmem]
          trivial
      · exact read_of_mem_documentTokens (splitRawText closing (step c t).rest).2 token hmem
termination_by t.length

/-! ## Tags -/

/-- A tag that opens an element starts with a character of its name. -/
theorem start_of_opens {inside : Text} {head : TagHead}
    (hstart : startsTag (inside ++ ['>']) = true)
    (hrole : roleOf ('<' :: (inside ++ ['>'])) = .opens head) :
    ∃ c t, inside = c :: t ∧ (Text.isAlphanum c = true ∨ c = '-') := by
  cases inside with
  | nil => exact absurd hstart (by decide)
  | cons c t =>
    refine ⟨c, t, rfl, ?_⟩
    have hslash : c ≠ '/' := by
      rintro rfl
      cases hrole
    have hmark : c ≠ '!' := by
      rintro rfl
      cases hrole
    simpa [startsTag, hslash, hmark] using hstart

/-- A slash at the end of a tag is cut off, and it is not the start of the name. -/
theorem exists_slash {c : Char} (hc : Text.isAlphanum c = true ∨ c = '-') (t : Text) :
    ∃ slash t', t = t' ++ (if slash = true then ['/'] else []) ∧
      (slash = false → (c :: t').getLast? ≠ some '/') := by
  rcases List.eq_nil_or_concat t with rfl | ⟨t', d, rfl⟩
  · refine ⟨false, [], rfl, fun _ hlast => ?_⟩
    cases hlast
    exact absurd hc (by decide)
  · by_cases hd : d = '/'
    · exact ⟨true, t', by simp [hd], fun h => nomatch h⟩
    · refine ⟨false, t'.concat d, by simp, fun _ hlast => hd ?_⟩
      simpa [List.getLast?_cons] using hlast

/-- A head that was read can be written. -/
theorem wellFormed_of_read {source : Text} {head : TagHead} (h : Token.Read (.tag source))
    (hrole : roleOf source = .opens head) : head.WellFormed := by
  obtain ⟨inside, rfl, hstart, -⟩ := h
  obtain ⟨c, t, rfl, hc⟩ := start_of_opens hstart hrole
  have hhead := roleOf_eq_opens hc (t ++ ['>'])
  rw [← List.cons_append, hrole] at hhead
  cases hhead
  have hname : isNameChar c = true := by
    rcases hc with hc | rfl
    · have hslash : c ≠ '/' := by rintro rfl; exact absurd hc (by decide)
      simp [isNameChar, Text.isBlank_of_isAlphanum hc, hslash]
    · decide
  obtain ⟨slash, t', ht, hlast⟩ := exists_slash hc t
  have hsource : (('<' :: (c :: t ++ ['>'])).drop 1).dropLast =
      c :: t' ++ if slash = true then ['/'] else [] := by
    rw [List.drop_one, List.tail_cons, List.dropLast_concat, ht, List.cons_append]
  rw [headOf_eq hsource hlast]
  exact
    { name_start := ⟨c, t'.takeWhile isNameChar, by simp [hname], hc⟩
      name_chars := List.all_eq_true.mp List.all_takeWhile
      attributes := fun a ha => Attributes.writable_of_mem_read ha
      keys_nodup := Keyed.nodup_keys_ofList _
      void_of_name := fun hvoid => by simp [hvoid] }

/-- A declaration that was read is read again. -/
theorem isDeclaration_of_read {source body : Text} (h : Token.Read (.tag source))
    (hrole : roleOf source = .declares body) : IsDeclaration body := by
  obtain ⟨inside, rfl, hstart, hquotes⟩ := h
  cases inside with
  | nil => exact absurd hstart (by decide)
  | cons c t =>
    have hbody : c = '!' ∧ c :: t = body := by
      unfold roleOf at hrole
      split at hrole
      · cases hrole
      · next heq =>
        cases hrole
        cases heq
        have hinside : ('!' :: (t ++ ['>'])).dropLast = '!' :: t := by
          rw [← List.cons_append, List.dropLast_concat]
        exact ⟨rfl, hinside.symm⟩
      · cases hrole
    obtain ⟨rfl, rfl⟩ := hbody
    refine ⟨rfl, ?_⟩
    have hend : tagEnd? none ('!' :: t ++ ['>']) = some ('!' :: t ++ ['>'], []) := by
      rw [tagEnd?_append hquotes, tagEnd?_close]
      rfl
    have hstep : lexer.step '<' ('!' :: t ++ ['>']) = _ := eq_of_steps (.tag hstart hend)
    rw [Lexer.tokens_cons, hstep, Lexer.tokens_nil]
    rfl

end Node

end LiveMarkup
