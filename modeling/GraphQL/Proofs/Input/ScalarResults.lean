import GraphQL.Proofs.Execution.Conformance
import GraphQL.Proofs.Input.IntScalar

/-!
Scalars sent out and sent back. What is accepted from a client would be sent to one as the same
value, and what was sent has the form of its scalar, which either way leaves as it is. Main
statement: results and inputs settle at once, and on exactly the values of that form.
-/
namespace GraphQL

/-- All that a scalar takes as an input it also takes as a result, with the same outcome. -/
theorem serializeScalar_of_coerceScalar {name : String} {value result : Json}
    (h : coerceScalar name value = .ok result) : serializeScalar name value = .ok result := by
  rcases Input.scalar_names name with rfl | rfl | rfl | rfl | rfl | custom
  · obtain ⟨n, number, range, rfl⟩ := Input.coerceScalar_int_ok.mp h
    refine Input.serializeScalar_int_ok.mpr ⟨n, ?_, range, rfl⟩
    cases value with
    | integer | float => exact number
    | _ => cases number
  · obtain ⟨x, number, rfl⟩ := Input.coerceScalar_float.mp h
    unfold serializeScalar
    rw [if_neg (by decide), if_pos rfl, floatResult_eq_ok]
    cases value with
    | integer | float => exact ⟨x, number, rfl⟩
    | _ => cases number
  · obtain ⟨s, rfl, rfl⟩ := Input.coerceScalar_string.mp h
    rfl
  · obtain ⟨b, rfl, rfl⟩ := Input.coerceScalar_boolean.mp h
    rfl
  · rcases Input.coerceScalar_id.mp h with ⟨s, rfl, rfl⟩ | ⟨n, rfl, rfl⟩
    · rfl
    · rfl
  · obtain ⟨int, float, string, boolean, id⟩ := Input.isCustomScalar_iff.mp custom
    rw [Input.coerceScalar_custom custom] at h
    unfold serializeScalar
    rw [if_neg int, if_neg float, if_neg string, if_neg boolean, if_neg id]
    exact h

/-- A value that has the form of its scalar can be sent back as it is. -/
theorem IsScalarResult.comes_back {name : String} {value : Json}
    (h : IsScalarResult name value) : coerceScalar name value = .ok value := by
  rcases Input.scalar_names name with rfl | rfl | rfl | rfl | rfl | custom
  · obtain ⟨n, rfl, range⟩ := h.int rfl
    exact Input.coerceScalar_int_ok.mpr ⟨n, rfl, range, rfl⟩
  · obtain ⟨x, rfl⟩ := h.float rfl
    exact Input.coerceScalar_float.mpr ⟨x, rfl, rfl⟩
  · obtain ⟨s, rfl⟩ := h.text (.inl rfl)
    exact Input.coerceScalar_string.mpr ⟨s, rfl, rfl⟩
  · obtain ⟨b, rfl⟩ := h.boolean rfl
    exact Input.coerceScalar_boolean.mpr ⟨b, rfl, rfl⟩
  · obtain ⟨s, rfl⟩ := h.text (.inr rfl)
    exact Input.coerceScalar_id.mpr (.inl ⟨s, rfl, rfl⟩)
  · exact Input.coerceScalar_custom custom value

/-- What is sent as a scalar can be sent again and sent back, and what is accepted as one can be
accepted again; none of it changes any more. The values that stay as they are, in the one direction
or the other, are those that have the form of the scalar. -/
theorem scalars_settle (name : String) :
    (∀ value result, serializeScalar name value = .ok result →
      serializeScalar name result = .ok result ∧ coerceScalar name result = .ok result) ∧
    (∀ value result, coerceScalar name value = .ok result →
      coerceScalar name result = .ok result ∧ serializeScalar name value = .ok result) ∧
    ∀ value, (serializeScalar name value = .ok value ↔ IsScalarResult name value) ∧
      (coerceScalar name value = .ok value ↔ IsScalarResult name value) := by
  have back {value result : Json} (sent : serializeScalar name value = .ok result) :
      coerceScalar name result = .ok result := (isScalarResult_of_serialize sent).comes_back
  refine ⟨?sent, ?accepted, fun value => ⟨?serialized, ?coerced⟩⟩
  case sent =>
    intro value result sent
    exact ⟨serializeScalar_of_coerceScalar (back sent), back sent⟩
  case accepted =>
    intro value result accepted
    exact ⟨Input.coerceScalar_again accepted, serializeScalar_of_coerceScalar accepted⟩
  case serialized =>
    exact ⟨isScalarResult_of_serialize, fun h => serializeScalar_of_coerceScalar h.comes_back⟩
  case coerced =>
    refine ⟨fun accepted => ?_, IsScalarResult.comes_back⟩
    exact isScalarResult_of_serialize (serializeScalar_of_coerceScalar accepted)

/-- A number that is spelled is sent as an Int though it is not accepted as one. -/
theorem scalars_settle_spelled :
    serializeScalar "Int" (.string "+007") = .ok (.ofInt 7) ∧
      coerceScalar "Int" (.string "+007") = .error .notAnInteger ∧
      serializeScalar "Int" (.ofInt 7) = .ok (.ofInt 7) ∧
      coerceScalar "Int" (.ofInt 7) = .ok (.ofInt 7) ∧
      coerceScalar "ID" (.ofInt 7) = .ok (.string "7") ∧
      coerceScalar "ID" (.string "7") = .ok (.string "7") := by
  have spelled : serializeScalar "Int" (.string "+007") = .ok (.ofInt 7) := rfl
  have accepted : coerceScalar "ID" (.ofInt 7) = .ok (.string "7") := rfl
  obtain ⟨again, back⟩ := (scalars_settle "Int").1 _ _ spelled
  exact ⟨spelled, rfl, again, back, accepted, ((scalars_settle "ID").2.1 _ _ accepted).1⟩

end GraphQL
