import VirtualPeople.Command
import VirtualPeople.Proofs.Json.Lines
import VirtualPeople.Proofs.Record.Decoding

/-!
# Answers are read from their lines

The people that an input is labeled with have neither floating-point numbers nor many levels, so
the answer to an input is read back from the line that it is written on
(`LabelerOutput.readText_text`), and the lines of all answers are told apart at the line breaks
(`Command.split_answersText`).
-/

namespace VirtualPeople

open Json

namespace LabelerOutput

theorem trace_encodes (trace : String) : FieldEncodes (Decoder.orElse Decoder.string "")
    (if trace = "" then none else some (.string trace)) trace := by
  split_ifs with hempty
  · subst hempty
    exact ⟨nofun, fun _ _ _ => rfl⟩
  · exact .given (.string trace)

theorem encodes (o : LabelerOutput) : Encodes decoder o.toJson o := by
  have hpeople : ∀ a ∈ o.people, Encodes Schema.activity.fields.decoder
      (Schema.activity.fields.toJson a) a :=
    fun a _ => Fields.encodes rfl (Fields.finite_of_isExact a rfl)
  refine .fields [⟨.items hpeople⟩, ⟨trace_encodes o.trace⟩] (by decide) rfl ?_ fun g n h => ?_
  · rw [toJson]
    split_ifs
    · simp only [List.map, membersOf, member_some, member_none, List.append_nil]
    · simp only [List.map, membersOf, member_some, List.append_nil, List.singleton_append]
  · simp only [List.forall_mem_cons] at h
    simp only [List.map, h]
    rfl

theorem plain_toJson (o : LabelerOutput) : o.toJson.Plain nestingLimit := by
  have hpeople : (Json.array (o.people.map Schema.activity.fields.toJson)).Plain
      (Schema.activity.fields.levels + 2) :=
    plain_array (List.forall_mem_map.2 fun a _ => Fields.plain_toJson a rfl)
  refine Plain.mono (plain_object (List.forall_mem_cons.2 ⟨hpeople, ?_⟩)) (by decide)
  split_ifs
  · exact nofun
  · exact List.forall_mem_singleton.2 ((plain_string o.trace).mono (Nat.zero_le _))

/-- An output is what its decoder reads from its text. -/
theorem readText_text (o : LabelerOutput) : decoder.readText o.toJson.text = some o := by
  have hread : Json.read? o.toJson.text = some o.toJson := Json.read_text o.plain_toJson.legible
  rw [Decoder.readText, hread, Option.bind_some]
  exact o.encodes.reads rearranges_id nestingLimit o.plain_toJson.depth_le

end LabelerOutput

namespace Command

/-- The line is the JSON of a result: that of an output, which is read from it again, or else that
of an object with nothing but the message of an error. -/
structure Answers (line : String) (result : Except Error LabelerOutput) : Prop where
  text : line = (answerJson result).text
  output : ∀ o, result = .ok o → LabelerOutput.decoder.readText line = some o
  error : ∀ err, result = .error err →
    Json.read? line = some (.object [("error", .string err.message)])

theorem answers_text (result : Except Error LabelerOutput) :
    Answers (answerJson result).text result := by
  rcases result with err | o
  · have hplain : (answerJson (.error err)).Plain 1 :=
      plain_object (List.forall_mem_singleton.2 (plain_string err.message))
    refine ⟨rfl, nofun, fun err' heq => ?_⟩
    cases heq
    exact Json.read_text hplain.legible
  · refine ⟨rfl, fun o' heq => ?_, nofun⟩
    cases heq
    exact o.readText_text

theorem split_answersText (results : List (Except Error LabelerOutput)) :
    Text.split '\n' (answersText results) = results.map (fun r => (answerJson r).text) ++ [""] := by
  have hlines : ∀ line ∈ results.map (fun r => (answerJson r).text), '\n' ∉ line.toList := by
    intro line hline
    obtain ⟨r, -, rfl⟩ := List.mem_map.1 hline
    exact Json.newline_not_mem_text (answerJson r)
  have hsplit := Text.split_lines hlines
  rwa [List.map_map] at hsplit

/-- A text with a line for each result, in their order. -/
theorem exists_lines (results : List (Except Error LabelerOutput)) :
    ∃ lines, Text.split '\n' (answersText results) = lines ++ [""] ∧
      List.Forall₂ Answers lines results := by
  refine ⟨_, split_answersText results, ?_⟩
  rw [List.forall₂_map_left_iff, List.forall₂_same]
  exact fun r _ => answers_text r

end Command

end VirtualPeople
