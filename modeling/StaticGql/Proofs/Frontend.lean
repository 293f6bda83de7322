import StaticGql.Frontend
import StaticGql.Proofs.Except

/-!
What the frontends take from the path of a file: the path itself, and those that read a program also the kind of
the file.
-/

namespace StaticGql.Frontend

variable {f : Frontend} {marker : Marker} {file file' text : String}

theorem holdsElements_iff : holdsElements file = true ↔
    ".tsx".toList <:+ file.toList ∨ ".jsx".toList <:+ file.toList := by
  have hends : ∀ ending : String, file.endsWith ending = true ↔ ending.toList <:+ file.toList := by
    intro ending
    show file.toSlice.endsWith ending = true ↔ _
    rw [String.Slice.endsWith_string_iff, String.copy_toSlice]
  rw [holdsElements, Bool.or_eq_true, hends, hends]

/-- The scanner does not look at the path of a file. -/
theorem analyze_scanner (m : Marker) (path path' text : String) : scanner.analyze m path' text =
    (scanner.analyze m path text).map fun a => { a with file := path' } := by
  show (Scan.analyze m path' text).mapError SourceError.unbalanced = Except.map _ (Except.mapError _ _)
  rw [Scan.analyze, Scan.analyze]
  cases Scan.forest text with
  | error e => rfl
  | ok f => rfl

/-- The other frontends read a program, in one of its forms. -/
theorem exists_form (hf : f ≠ scanner) : ∃ form, ∀ marker file text, f.analyze marker file text =
    match Script.analyze? form (holdsElements file) marker file text with
    | some a => .ok a
    | none => .error .notAProgram := by
  cases f with
  | scanner => exact absurd rfl hf
  | abstractTree => exact ⟨.abstract, fun _ _ _ => rfl⟩
  | concreteTree => exact ⟨.concrete, fun _ _ _ => rfl⟩

/-- Besides the path itself, an analysis takes from it only whether there may be elements in angle brackets. -/
theorem analyze_under (h : holdsElements file' = holdsElements file) : f.analyze marker file' text =
    (f.analyze marker file text).map fun a => { a with file := file' } := by
  by_cases hf : f = scanner
  · exact hf ▸ analyze_scanner marker file file' text
  · obtain ⟨form, hform⟩ := exists_form hf
    rw [hform, hform, h, Script.analyze?, Script.analyze?]
    cases Script.parse? (holdsElements file) text <;> rfl

theorem file_of_analyze {a : Analysis} (h : f.analyze marker file text = .ok a) : a.file = file := by
  obtain ⟨a, -, rfl⟩ := map_eq_ok_iff.1 ((analyze_under rfl).symm.trans h)
  rfl

end StaticGql.Frontend
