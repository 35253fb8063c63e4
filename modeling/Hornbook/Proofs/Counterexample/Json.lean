import Hornbook.Counterexample.Json
import Hornbook.Proofs.Json.RoundTrip
import Hornbook.Proofs.Lists

/-!
# Traces are read back from their JSON text

The printer and the reader agree on JSON values of any shape.  What is left is that each record
is written with its fields under the names that it is read by, and that it holds no number.
-/

namespace Hornbook

open Json

namespace Assignment

@[simp] theorem ofJson?_toJson (a : Assignment) : ofJson? a.toJson = some a := by
  simp [ofJson?, ofFields?, toJson, record?, member?, text?]

theorem wellFormed_toJson (a : Assignment) : a.toJson.WellFormed :=
  .object_cons (.string _) (.object_cons (.string _) .object_nil)

end Assignment

namespace TraceStep

@[simp] theorem ofJson?_toJson (s : TraceStep) : ofJson? s.toJson = some s := by
  simp [ofJson?, ofFields?, toJson, record?, member?, text?, elements?,
    mapM_map_eq_self Assignment.ofJson?_toJson]

theorem wellFormed_toJson (s : TraceStep) : s.toJson.WellFormed :=
  .object_cons (.string _) <| .object_cons (.string _) <|
    .object_cons (.array_map Assignment.wellFormed_toJson s.state) .object_nil

end TraceStep

namespace Trace

@[simp] theorem ofJson?_toJson (t : Trace) : ofJson? t.toJson = some t := by
  simp [ofJson?, ofFields?, toJson, record?, member?, elements?,
    mapM_map_eq_self TraceStep.ofJson?_toJson]

theorem wellFormed_toJson (t : Trace) : t.toJson.WellFormed :=
  .object_cons (.array_map TraceStep.wellFormed_toJson t.steps) .object_nil

/-- White space between its tokens makes no difference to what a text describes. -/
theorem decode?_jsonText (t : Trace) {l : Layout} (blank : l.Blank) :
    decode? ofJson? (t.jsonText l) = some t := by
  simp [decode?, jsonText, t.wellFormed_toJson.ofText?_text blank]

theorem jsonText_inj {t u : Trace} {l : Layout} (blank : l.Blank) :
    u.jsonText l = t.jsonText l ↔ u = t := by
  refine ⟨fun same => ?_, fun same => same ▸ rfl⟩
  have read := u.decode?_jsonText blank
  rw [same, t.decode?_jsonText blank] at read
  exact (Option.some.inj read).symm

/-- A trace is read back from its JSON text, indented or compact, whatever its texts contain.
So no two traces have the same JSON text. -/
theorem json_round_trip (t : Trace) :
    decode? ofJson? (t.jsonText .indented) = some t ∧
      decode? ofJson? (t.jsonText .compact) = some t ∧
      ∀ u : Trace, (u.jsonText .indented = t.jsonText .indented ↔ u = t) ∧
        (u.jsonText .compact = t.jsonText .compact ↔ u = t) :=
  ⟨t.decode?_jsonText Layout.blank_indented, t.decode?_jsonText Layout.blank_compact,
    fun _ => ⟨jsonText_inj Layout.blank_indented, jsonText_inj Layout.blank_compact⟩⟩

end Trace

end Hornbook
