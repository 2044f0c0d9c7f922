import ShaderScript.Proofs.Wire.Loading
import ShaderScript.Proofs.Wire.Records

/-!
# Saved programs are loaded again

What is saved for a program is one of the ways to write it, and its nodes are decoded as they were
encoded. So a saved program is lost only if brackets are nested too deep, and a text of its own
tells whether they are.
-/

namespace ShaderScript.Wire

open ShaderScript.Json

theorem holds_body (program : Program) :
    Holds (.arr (encodeNodes program.body)) (.list .node) program.body :=
  holds_nodes fun node _ => written node

/-- What is saved is a text of the program. -/
theorem spelling_save (program : Program) :
    Spelling (.arr (encodeNodes program.body)) program.save := by
  have hbody := spells_writeValue (holds_body program).plain 1
  obtain ⟨final, htext⟩ := writeValue_obj 0 [("body", .arr (encodeNodes program.body))]
  refine ⟨.empty, .empty, writeValue 0 (encodeProgram program), ?_, ?_⟩
  · rw [encodeProgram, htext]
    exact @ProgramText.object _ _ (fun entry => entry.2.1) Prod.fst [] []
      (writtenMember 1 ("body", .arr (encodeNodes program.body))) final
      (List.forall_mem_singleton.mpr (spelled_flatMap _)) ⟨rfl, hbody⟩ nofun
  · simp [Program.save, Value.write, Gap.empty]

theorem bracketDepth_save (program : Program) :
    bracketDepth program.save = (Value.arr (encodeNodes program.body)).height + 1 := by
  have hplain : (encodeProgram program).Plain := .obj (by simpa using (holds_body program).plain)
  have hdepth : bracketDepth program.save = nesting (writeValue 0 (encodeProgram program)) := by
    rw [Program.save, Value.write, bracketDepth, String.toList_ofList]
    rfl
  rw [hdepth, nesting_spelled (spells_writeValue hplain 0), encodeProgram, Value.height_obj]
  simp [Value.tallest]

theorem readAll_saved (program : Program) :
    Reading (bracketDepth program.save ≤ 127) (readAll program.save.toList) program := by
  have hdecode := (holds_body program).decodes
  have hread := (readAll_spelled (spelling_save program)).reading ⟨_, hdecode⟩
  rw [decodedNodes_of_decode hdecode] at hread
  exact hread.congr (by rw [bracketDepth_save, Nat.succ_le_succ_iff])

end ShaderScript.Wire

namespace ShaderScript

/-- A saved program is loaded as it was, if no more than 127 brackets are open at the same time in
its text. If there are more, loading it ends with the error that says so. -/
theorem load_save (program : Program) :
    (Json.bracketDepth program.save ≤ 127 → Program.load program.save = .ok program) ∧
      (128 ≤ Json.bracketDepth program.save → ∃ error, Program.load program.save = .error error ∧
        error.cause = .malformed .tooDeep ∧ error.cause.message = "recursion limit exceeded") := by
  have hread := Wire.readAll_saved program
  constructor
  · intro hfits
    rw [Program.load, hread.ok hfits]
  · intro hdeep
    obtain ⟨unread, herror⟩ := hread.deep (by omega)
    rw [Program.load, herror]
    exact ⟨_, rfl, rfl, rfl⟩

end ShaderScript
