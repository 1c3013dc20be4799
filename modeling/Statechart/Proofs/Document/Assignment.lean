import Statechart.Proofs.Document.Action

/-!
# Assignments that are written and read back

A mapping without functions in place is found again in its written form unless its only field is
`value` (`read_write_iff`).  The form of such a mapping is that of a literal, and the literal that
is read computes something else, unless the field is a literal itself.
-/

namespace Statechart.Mapping

variable {m : Mapping} {e : Expression} {functions : Named (Computation Json)} {context : Json}
  {event : Event}

/-! ### Reading -/

theorem ofJson?_toJson (h : m.Writable) (hplain : ¬ m.Disguised) :
  ofJson? m.toJson = some m
  := (Document.Mapping.faithful_of_writable h hplain).read_write

/-- The form of a disguised mapping is read as a literal. -/
theorem ofJson?_toJson_disguised (h : (fields [("value", e)]).Writable) :
  ofJson? (fields [("value", e)]).toJson = some (whole (.value e.toJson))
  := by
  have he : e.toJson.WellFormed :=
    (Document.Expression.faithful_of_writable (h.2 _ List.mem_cons_self)).wellFormed
  change some (whole (.value e.toJson.merged)) = _
  rw [Json.merged_of_wellFormed e.toJson he]

/-- An action that assigns a mapping is read as one that assigns what the form of the mapping is
read as. -/
theorem ofJson?_assign {read : Mapping} (h : m.Writable) (hread : ofJson? m.toJson = some read) :
  Action.ofJson? (Action.assign m).toJson = some (.assign read)
  := by
  have hjson : (Action.assign m).toJson =
      Json.objOf [("type", some (.str "assign")), ("assignment", some m.toJson)] := rfl
  rw [hjson, Document.Action.ofJson?_objOf rfl]
  · change (ofJson? m.toJson).map Action.assign = _
    rw [hread, Option.map_some]
  · refine Document.wellFormed_objOf (by simp) ?_
    simpa using Document.Mapping.wellFormed_toJson h

/-! ### Computing -/

theorem toJson_eq_value_iff {v : Json} :
  e.toJson = .obj [("value", v)] ↔ e = .value v
  := by
  cases e <;> simp [Expression.toJson]

theorem exists_toJson (e : Expression) :
  ∃ f, e.toJson = .obj [f]
  := by
  cases e <;> exact ⟨_, rfl⟩

/-- The value of an expression under the key `value`, laid over fields, is the form of the
expression only if this is a literal, and if nothing is left of the fields. -/
theorem ok_toJson_eq_map_iff {own : List (String × Json)} :
  .ok e.toJson = (e.eval functions context event).map
      (fun v => .obj (Association.insert "value" v own)) ↔
    (∃ v, e = .value v) ∧ (own = [] ∨ ∃ w, own = [("value", w)])
  := by
  constructor
  · intro h
    cases hv : e.eval functions context event with
    | error reason =>
      rw [hv] at h
      cases h
    | ok v =>
      rw [hv] at h
      have hjson : e.toJson = .obj (Association.insert "value" v own) := Except.ok.inj h
      obtain ⟨f, hf⟩ := exists_toJson e
      rw [hf, Json.obj.injEq] at hjson
      obtain ⟨rfl, hown⟩ := Association.insert_eq_singleton_iff.mp hjson.symm
      exact ⟨⟨v, toJson_eq_value_iff.mp hf⟩, hown⟩
  · rintro ⟨⟨v, rfl⟩, hown⟩
    change _ = Except.ok (Json.obj (Association.insert "value" v own))
    rw [Association.insert_eq_singleton_iff.mpr ⟨rfl, hown⟩]
    rfl

theorem evalEntries_singleton {key : String} :
  evalEntries functions [(key, e)] context event =
    (e.eval functions context event).map (fun v => [(key, v)])
  := by
  rw [evalEntries, List.mapM_cons, List.mapM_nil]
  dsimp only
  cases e.eval functions context event <;> rfl

theorem evaluate_value :
  (fields [("value", e)]).evaluate functions context event =
    (e.eval functions context event).map (fun v => .obj (Association.insert "value" v []))
  := by
  rw [evaluate, evalEntries_singleton]
  cases e.eval functions context event <;> rfl

theorem apply_value_obj {own : List (String × Json)} :
  (fields [("value", e)]).apply functions (.obj own) event =
    (e.eval functions (.obj own) event).map (fun v => .obj (Association.insert "value" v own))
  := by
  rw [apply, evalEntries_singleton]
  cases e.eval functions (.obj own) event <;> rfl

theorem apply_value_null :
  (fields [("value", e)]).apply functions .null event =
    (e.eval functions .null event).map (fun v => .obj (Association.insert "value" v []))
  := by
  rw [apply, evalEntries_singleton]
  cases e.eval functions .null event <;> rfl

/-- The literal that is read evaluates to the same as the disguised mapping exactly if the field is
a literal. -/
theorem evaluate_disguised_iff :
  (whole (.value e.toJson)).evaluate functions context event =
      (fields [("value", e)]).evaluate functions context event ↔
    ∃ v, e = .value v
  := by
  rw [evaluate_value]
  exact ok_toJson_eq_map_iff.trans (and_iff_left (Or.inl rfl))

/-- The literal that is read updates a context in the same way exactly if moreover the context has
nothing besides a field `value`. -/
theorem apply_disguised_iff :
  (whole (.value e.toJson)).apply functions context event =
      (fields [("value", e)]).apply functions context event ↔
    (∃ v, e = .value v) ∧
      (context = .null ∨ context = .obj [] ∨ ∃ w, context = .obj [("value", w)])
  := by
  have hrefused : ∀ {reason}, (fields [("value", e)]).apply functions context event =
      .error reason → (whole (.value e.toJson)).apply functions context event ≠
        (fields [("value", e)]).apply functions context event := by
    intro reason h heq
    rw [h] at heq
    cases heq
  cases context with
  | null =>
    rw [apply_value_null]
    exact ok_toJson_eq_map_iff.trans (and_congr_right fun _ => by simp)
  | obj own =>
    rw [apply_value_obj]
    exact ok_toJson_eq_map_iff.trans (and_congr_right fun _ => by simp)
  | _ =>
    refine iff_of_false (hrefused rfl) ?_
    simp

/-- Let a mapping have no functions in place.  Its form is read as a mapping, and that of the action
that assigns it as the action that assigns what is read.  This is the mapping itself if and only if
its only field is not `value`.  Otherwise it evaluates to the same exactly if the field is a
literal, and it updates a context in the same way exactly if the context moreover has nothing to
lose. -/
theorem read_write_iff (h : m.Writable) :
  ∃ read, ofJson? m.toJson = some read ∧
    Action.ofJson? (Action.assign m).toJson = some (.assign read) ∧
    (read = m ↔ ¬ m.Disguised) ∧ (m.Disguised → (read == m) = false) ∧
    ∀ functions context event,
      (read.evaluate functions context event = m.evaluate functions context event ↔
        (m.Disguised → ∃ v, m = .fields [("value", .value v)])) ∧
      (read.apply functions context event = m.apply functions context event ↔
        (m.Disguised → (∃ v, m = .fields [("value", .value v)]) ∧
          (context = .null ∨ context = .obj [] ∨ ∃ w, context = .obj [("value", w)])))
  := by
  by_cases hdisguised : m.Disguised
  · obtain ⟨e, rfl⟩ := id hdisguised
    have hread := ofJson?_toJson_disguised h
    refine ⟨_, hread, ofJson?_assign h hread, ?_, fun _ => rfl, ?_⟩
    · exact iff_of_false (fun heq => by cases heq) (not_not_intro hdisguised)
    · intro functions context event
      have hliteral : (∃ v, fields [("value", e)] = .fields [("value", .value v)]) ↔
          ∃ v, e = .value v := by simp
      rw [hliteral, evaluate_disguised_iff, apply_disguised_iff]
      exact ⟨(imp_iff_right hdisguised).symm, (imp_iff_right hdisguised).symm⟩
  · have hread := ofJson?_toJson h hdisguised
    refine ⟨m, hread, ofJson?_assign h hread, iff_of_true rfl hdisguised,
      fun hm => absurd hm hdisguised, ?_⟩
    intro functions context event
    exact ⟨iff_of_true rfl fun hm => absurd hm hdisguised,
      iff_of_true rfl fun hm => absurd hm hdisguised⟩

/-- A mapping that counts and that resets. -/
def tallying : Mapping :=
  .fields [("count", .path "event.n"), ("reset", .value (.bool true))]

theorem read_write_iff_tallying :
  tallying.Writable ∧ ofJson? tallying.toJson = some tallying ∧
    Action.ofJson? (Action.assign tallying).toJson = some (.assign tallying)
  := by
  have hwritable : tallying.Writable :=
    ⟨by unfold Association.Increasing; decide, by simp [Expression.Writable, Json.WellFormed]⟩
  obtain ⟨read, hread, haction, hiff, -⟩ := read_write_iff hwritable
  have hplain : ¬ tallying.Disguised := by simp [Disguised, tallying]
  rw [hiff.mpr hplain] at hread haction
  exact ⟨hwritable, hread, haction⟩

/-- A mapping that sets the field `value`. -/
def disguised : Mapping :=
  .fields [("value", .path "event.v")]

/-- The disguised mapping sets a field of the context, and the mapping that is read from its form
replaces the context with the form. -/
theorem read_ne_disguised :
  disguised.Writable ∧
    ofJson? disguised.toJson = some (.whole (.value (.obj [("path", .str "event.v")]))) ∧
    (whole (.value (.obj [("path", .str "event.v")])) == disguised) = false ∧
    disguised.apply (fun _ => none) (.obj [("a", .int 1)])
        { name := "E", data := .obj [("v", .int 2)] } =
      .ok (.obj [("a", .int 1), ("value", .int 2)]) ∧
    (whole (.value (.obj [("path", .str "event.v")]))).apply (fun _ => none)
        (.obj [("a", .int 1)]) { name := "E", data := .obj [("v", .int 2)] } =
      .ok (.obj [("path", .str "event.v")])
  := by
  refine ⟨⟨List.pairwise_singleton _ _, by simp [Expression.Writable]⟩, rfl, rfl, ?_, rfl⟩
  rfl

end Statechart.Mapping
