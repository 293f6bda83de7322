import StaticGql.Proofs.Scan.Inert
import StaticGql.Proofs.Scan.Lexing
import StaticGql.Proofs.Transform.Plan

/-!
What a transform writes, as tokens. The brackets of each written text close among themselves, and none of its
words can begin a declaration.
-/

namespace StaticGql.Transform

open Scan

variable {cs ds : List Char} {a : Artifact} {o : Options} {e : Element} {p : Plan} {analysis : Analysis}

/-- The words of what is written that are no names of properties. -/
def vocabulary : List String :=
  ["import", "from", "const", "require", runtimeBinding, moduleBinding, "prebuild", "JSON", "runtime"]

/-- Tokens that keep to themselves, with no words but those of the templates. -/
structure Keeps (ls : List Lexeme) : Prop where
  nested : WellNested (ls.map (·.kind))
  quiet : Quiet (ls.map (·.kind)) = true
  words : ∀ w ∈ freeWords none ls, w ∈ vocabulary

/-- Wherever it is put, a text is cut into tokens that keep to themselves. -/
def Settled (cs : List Char) : Prop := ∃ ls, Cuts cs ls ∧ Keeps ls

namespace Keeps

variable {ls ms : List Lexeme}

theorem nil : Keeps [] := ⟨.nil, rfl, by simp [freeWords_nil]⟩

theorem append (h : Keeps ls) (h' : Keeps ms) : Keeps (ls ++ ms) := by
  refine ⟨?_, ?_, fun w hw => ?_⟩
  · rw [List.map_append]
    exact h.nested.append h'.nested
  · rw [List.map_append]
    exact Quiet.append h.quiet h'.quiet
  · rw [freeWords_append, List.mem_append] at hw
    exact hw.elim (h.words w) fun hw => h'.words w (freeWords_subset _ hw)

/-- The check of a list of tokens. -/
def check (ls : List Lexeme) : Bool :=
  unclosed [] (ls.map (·.kind)) = some [] && Quiet (ls.map (·.kind)) && (freeWords none ls).all (· ∈ vocabulary)

theorem of_check (h : check ls = true) : Keeps ls := by
  simp only [check, Bool.and_eq_true, decide_eq_true_eq, List.all_eq_true] at h
  exact ⟨wellNested_iff.2 h.1.1, h.1.2, h.2⟩

end Keeps

theorem cuts_quoting {before after : String} {ls ms : List Lexeme} (hbefore : plain [] before.toList = some ls)
    (hafter : plain [] after.toList = some ms) (s : String) :
    Cuts (before ++ quoted s ++ after).toList (ls ++ ⟨.str, quoted s⟩ :: ms) := by
  rw [String.toList_append, String.toList_append, quoted, String.toList_ofList, List.append_assoc]
  exact (Cuts.plain hbefore).append ((Cuts.str s).append (.plain hafter))

namespace Settled

theorem nil : Settled [] := ⟨[], .nil, .nil⟩

theorem append (h : Settled cs) (h' : Settled ds) : Settled (cs ++ ds) := by
  obtain ⟨ls, hcuts, hkeeps⟩ := h
  obtain ⟨ms, hcuts', hkeeps'⟩ := h'
  exact ⟨ls ++ ms, hcuts.append hcuts', hkeeps.append hkeeps'⟩

theorem line : Settled ['\n'] := ⟨[], .line, .nil⟩

theorem of_prints (h : Prints cs) : Settled cs := by
  obtain ⟨ls, hcuts, hnested, hword⟩ := h
  refine ⟨ls, hcuts, hnested, Quiet.of_not_mem ?_, ?_⟩
  · simpa using hword
  · simp [freeWords_eq_nil hword]

theorem keeps_lexemes {s : String} (h : Settled s.toList) : Keeps ((tokens s).map (·.lexeme)) := by
  obtain ⟨ls, hcuts, hkeeps⟩ := h
  rwa [hcuts.lexemes]

theorem wellNested {s : String} (h : Settled s.toList) : WellNested ((tokens s).map (·.kind)) := by
  simpa [Function.comp_def, Token.lexeme] using h.keeps_lexemes.nested

theorem quiet {s : String} (h : Settled s.toList) : Quiet ((tokens s).map (·.kind)) = true := by
  simpa [Function.comp_def, Token.lexeme] using h.keeps_lexemes.quiet

/-- What is cut out of a quotation between two plain texts keeps to itself. -/
def keeps (before after : String) : Bool :=
  match plain [] before.toList, plain [] after.toList with
  | some ls, some ms => Keeps.check (ls ++ ⟨.str, ""⟩ :: ms)
  | _, _ => false

theorem quoting {before after : String} (h : keeps before after = true) (s : String) :
    Settled (before ++ quoted s ++ after).toList := by
  rw [keeps] at h
  split at h
  · rename_i ls ms hbefore hafter
    refine ⟨_, cuts_quoting hbefore hafter s, .of_check ?_⟩
    simpa [Keeps.check, freeWords_append, freeWords_cons, freeWord?] using h
  · cases h

theorem lines {texts : List String} (h : ∀ s ∈ texts, Settled s.toList) :
    Settled ("\n".intercalate texts).toList := by
  rw [String.toList_intercalate]
  induction texts with
  | nil => exact nil
  | cons first rest ih =>
      obtain ⟨hfirst, hrest⟩ := List.forall_mem_cons.1 h
      cases rest with
      | nil => simpa [List.intercalate] using hfirst
      | cons second rest =>
          rw [List.map_cons, List.map_cons, List.intercalate_cons_cons]
          exact (hfirst.append line).append (ih hrest)

end Settled

theorem settled_runtimeImport (o : Options) : Settled (runtimeImport o).toList := by
  rw [runtimeImport]
  cases o.moduleFormat with
  | esm => exact .quoting (by decide +kernel) o.runtimeModule
  | cjs => exact .quoting (by decide +kernel) o.runtimeModule

theorem append_middle (a b c d e : String) : a ++ (b ++ c ++ d) ++ e = a ++ b ++ c ++ (d ++ e) := by
  simp only [String.append_assoc]

/-- What stands around the one quotation in the description of an element. -/
theorem prebuild_between (before after : String) (descriptor : Json) : before ++ prebuild descriptor ++ after =
    before ++ "\x7b prebuild: JSON.parse(" ++ quoted descriptor.sorted.compact ++
      ("), runtime: \x7b\x7d \x7d" ++ after) := by
  have hprebuild : prebuild descriptor =
      "\x7b prebuild: JSON.parse(" ++ quoted descriptor.sorted.compact ++ "), runtime: \x7b\x7d \x7d" := rfl
  rw [hprebuild, append_middle]

theorem settled_prebuild {before after : String} (descriptor : Json)
    (h : Settled.keeps (before ++ "\x7b prebuild: JSON.parse(") ("), runtime: \x7b\x7d \x7d" ++ after) = true) :
    Settled (before ++ prebuild descriptor ++ after).toList := by
  rw [prebuild_between]
  exact Settled.quoting h descriptor.sorted.compact

theorem isTextual_strs (texts : List String) : IsTextual (Json.strs texts) :=
  .arr fun _ hj => by
    obtain ⟨s, -, rfl⟩ := List.mem_map.1 hj
    exact .str s

theorem isTextual_ids (ids : List CanonicalId) : IsTextual (idsToJson ids) := isTextual_strs _

theorem isTextual_variables (v : Dict String) : IsTextual (variablesToJson v) :=
  .obj fun _ hf => by
    obtain ⟨⟨k, t⟩, -, rfl⟩ := List.mem_map.1 hf
    exact .str t

theorem isTextual_toJson (e : Element) : IsTextual e.toJson := by
  have hstr := IsTextual.str
  have hstrs := isTextual_strs
  have hids := isTextual_ids
  have hvariables := isTextual_variables
  refine .obj (List.forall_mem_cons.2 ⟨.str _, ?_⟩)
  cases e <;> simp [FragmentElement.fieldsToJson, SliceElement.fieldsToJson, OperationElement.fieldsToJson, *]

theorem settled_precomputed (e : Element) : Settled ("(" ++ e.precomputed ++ ")").toList := by
  have hopen : mark? '(' = some .openParen := rfl
  have hclose : mark? ')' = some .closeParen := rfl
  have hprints := Prints.enclose hopen hclose rfl (isTextual_toJson e).sorted.prints
  rw [String.toList_append, String.toList_append, Element.precomputed, Json.compact, String.toList_ofList]
  simpa using Settled.of_prints hprints

theorem settled_expression (o : Options) (e : Element) : Settled (render o e).expression.toList := by
  rw [render]
  cases o.mode with
  | zeroRuntime => exact settled_precomputed e
  | runtime =>
      cases e with
      | operation op => cases o.moduleFormat <;> exact .quoting (by decide +kernel) op.operationName
      | model | slice | fragment =>
          cases o.moduleFormat <;> exact settled_prebuild _ (by rw [Element.kind]; decide +kernel)

theorem settled_hoisted (o : Options) (e : Element) : ∀ s ∈ (render o e).hoisted, Settled s.toList := by
  intro s hs
  rw [render] at hs
  cases hmode : o.mode with
  | zeroRuntime => simp [hmode] at hs
  | runtime =>
      cases e with
      | operation op =>
          simp only [hmode, Option.mem_some] at hs
          subst hs
          cases o.moduleFormat <;> exact settled_prebuild _ (by decide +kernel)
      | model | slice | fragment => simp [hmode] at hs

end StaticGql.Transform
