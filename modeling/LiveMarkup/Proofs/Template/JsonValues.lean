import LiveMarkup.Proofs.Json.SafeIntegers
import LiveMarkup.Proofs.Template.ClientOnly

/-!
# JSON in placeholders

JSON can be put in a placeholder as it is, or made a value first, which turns arrays into lists and
numbers into floating-point numbers. Markup does not tell which: in the text of an element arrays are
written item by item either way, attributes give a list its JSON form back, and both count as true
alike. Integers that are too great for floating-point numbers would come out changed, and are left
out of `resolve_ofJson`.
-/

namespace LiveMarkup

namespace Value

variable {config : Config} {part : Part} {j : Json}

/-! ## At each kind of part -/

mutual

/-- JSON that was made a value is written in text like JSON. -/
theorem nodeText_ofJson (config : Config) (result : Bool) (tag : Text) : (j : Json) →
    nodeText config (ofJson j) result tag = .ok (j.nodeText (.forTextIn tag))
  | .null => by rw [ofJson, nodeText, Json.nodeText]
  | .bool b => by rw [ofJson, nodeText, Json.nodeText]
  | .int n => by rw [ofJson, nodeText, Json.nodeText, primitiveText?, Option.getD_some]
  | .float x => by rw [ofJson, nodeText, Json.nodeText, primitiveText?, Option.getD_some]
  | .str s => by rw [ofJson, nodeText, Json.nodeText]
  | .arr items => by rw [ofJson, nodeText, Json.nodeText, nodeTextAll_ofJsonAll config tag items]
  | .obj fields => by rw [ofJson, nodeText]

theorem nodeTextAll_ofJsonAll (config : Config) (tag : Text) : (items : List Json) →
    nodeTextAll config (ofJsonAll items) tag = .ok (Json.nodeTextAll (.forTextIn tag) items)
  | [] => by rw [ofJsonAll, nodeTextAll, Json.nodeTextAll]
  | j :: items => by
    rw [ofJsonAll, nodeTextAll, nodeText_ofJson config false tag j,
      nodeTextAll_ofJsonAll config tag items, Json.nodeTextAll]
    rfl

end

theorem attributePiece_ofJson (part : Part) (h : j.isSafe = true) :
    attributePiece part (ofJson j) = attributePiece part (.json j) := by
  cases j with
  | arr items =>
    obtain ⟨j', hj', hsame⟩ := toJson?_ofJson (.arr items) h
    rw [ofJson] at hj' ⊢
    have hlist : attributePiece part (.list (ofJsonAll items)) = .ok (some j'.attributeText) := by
      rw [attributePiece, hj']
    have htext : j'.attributeText = (Json.arr items).attributeText := by
      rw [Json.attributeText, Json.attributeText, hsame]
    rw [hlist, htext, attributePiece]
  | _ => rfl

theorem isTruthy_ofJson (h : j.isSafe = true) : (ofJson j).isTruthy = (json j).isTruthy := by
  cases j with
  | int n =>
    have hsafe : n.natAbs ≤ Binary64.maxSafe := by simpa [Json.isSafe] using h
    rw [ofJson, isTruthy, isTruthy, jsonTruthy, Binary64.isZero_ofInt hsafe]
    simp [Binary64.ofInt_ne_nan hsafe]
  | float x =>
    have hnumber : x ≠ .nan := by simpa [Json.isSafe] using h
    rw [ofJson, isTruthy, isTruthy, jsonTruthy]
    simp [hnumber]
  | _ => rfl

theorem applied_ofJson (part : Part) (j : Json) : applied part (ofJson j) = .ok (ofJson j) := by
  cases j <;> rfl

theorem switchPiece_ofJson (h : j.isSafe = true) :
    switchPiece (ofJson j) = switchPiece (.json j) := by
  have htruthy : ∀ v : Value, v = ofJson j → switchPiece v = .ok v.isTruthy := by
    rintro v rfl
    cases j <;> rfl
  rw [htruthy _ rfl, isTruthy_ofJson h]
  rfl

/-- No part is told which of the two stands in its slot. -/
theorem agrees_ofJson (config : Config) (part : Part) (h : j.isSafe = true) :
    (slot config (.json j)).Agrees part (slot config (ofJson j)) := by
  cases part with
  | text tag =>
    have hnode : nodeText config (.json j) false tag = nodeText config (ofJson j) false tag := by
      rw [nodeText_ofJson, nodeText]
    exact hnode
  | binding b =>
    refine ⟨?_, ?_⟩
    · show pieceAt (.binding b) (.json j) = pieceAt (.binding b) (ofJson j)
      rw [pieceAt, pieceAt, applied_ofJson]
      exact (attributePiece_ofJson _ h).symm
    · show switchAt (.binding b) (.json j) = switchAt (.binding b) (ofJson j)
      rw [switchAt, switchAt, applied_ofJson]
      exact (switchPiece_ofJson h).symm

/-! ## In templates -/

/-- JSON as it is and JSON made a value come to the same in every part, at each of its places, and
in every template, whatever the other values are: to the same text or to the same error. -/
theorem resolve_ofJson (config : Config) {j : Json} (h : j.isSafe = true) :
    (∀ (part : Part) (us ws : List Value),
      partText config part (slotsOf config (us ++ .json j :: ws)) =
        partText config part (slotsOf config (us ++ ofJson j :: ws))) ∧
    ∀ (t : Except TemplateError Template) (us ws : List Value),
      TemplateResult.resolve config ⟨t, us ++ .json j :: ws⟩ =
        TemplateResult.resolve config ⟨t, us ++ ofJson j :: ws⟩ := by
  refine ⟨fun part us ws => partText_congr fun _ => ?_, fun t us ws => ?_⟩
  · exact forall₂_agrees (agrees_ofJson config part h) us ws
  · cases t with
    | error e => rfl
    | ok t => exact templateText_congr_at fun owner _ => agrees_ofJson config owner h

/-- An array of an integer, an object with a great one in it, and an array. -/
def mixedArray : Json :=
  .arr [.int (-1), .obj [("n".toList, .int 9007199254740992)], .arr [.str "y".toList, .null]]

/-- Between the literals of a class an array is written like a list. -/
theorem resolve_ofJson_mixedArray : mixedArray.isSafe = true ∧
    TemplateResult.resolve {} ⟨.ok Template.classed, [.string ['x'], .json mixedArray, .null]⟩ =
      TemplateResult.resolve {} ⟨.ok Template.classed, [.string ['x'], ofJson mixedArray, .null]⟩ ∧
    TemplateResult.resolve {} ⟨.ok Template.classed, [.string ['x'], .json mixedArray, .null]⟩ =
      .ok "<p class=\"a x [-1,\x7b'n':9007199254740992\x7d,['y',null]] c\"></p>".toList := by
  have hsafe : mixedArray.isSafe = true := by decide
  exact ⟨hsafe, (resolve_ofJson {} hsafe).2 (.ok Template.classed) [.string ['x']] [.null], rfl⟩

/-- An integer that is not safe comes out of a list as a floating-point number. -/
example : (toJson? (ofJson (.arr [.int 9007199254740992]))).map Json.attributeText =
    some "[9007199254740992.0]".toList := by
  decide +kernel

end Value

end LiveMarkup
