import Mathlib.Algebra.Group.Nat.Defs
import StaticGql.Cache.Codec
import StaticGql.Proofs.Artifact.RoundTrip
import StaticGql.Proofs.Json.Depth

/-!
Analyses that come back from their JSON as they were: their counts have sixty-four bits, and the options of
their declarations are in order and have small integers for numbers. Only these options nest without a bound.
-/

namespace StaticGql

open Json

namespace Json

variable {α : Type} {depth : Nat} {p : Number → Bool}

theorem listOf_map_of_mem {write : α → Json} {read : Json → Option α} {l : List α}
    (h : ∀ a ∈ l, read (write a) = some a) : listOf read (arr (l.map write)) = some l := by
  rw [listOf]
  induction l with
  | nil => rfl
  | cons a rest ih =>
      obtain ⟨ha, hrest⟩ := List.forall_mem_cons.1 h
      rw [List.map_cons, List.mapM_cons, ha, ih hrest]
      rfl

theorem mapM_fields_of_mem {write : α → Json} {read : Json → Option α} (d : Dict α)
    (h : ∀ e ∈ d.toList, read (write e.2) = some e.2) : ((d.toList.map fun e => (e.1, write e.2)).mapM
      fun f : String × Json => (read f.2).map (f.1, ·)).map Dict.ofList = some d := by
  have hlist : ∀ l : List (String × α), (∀ e ∈ l, read (write e.2) = some e.2) →
      ((l.map fun e => (e.1, write e.2)).mapM fun f : String × Json => (read f.2).map (f.1, ·)) = some l := by
    intro l hl
    induction l with
    | nil => rfl
    | cons e rest ih =>
        obtain ⟨he, hrest⟩ := List.forall_mem_cons.1 hl
        rw [List.map_cons, List.mapM_cons, ih hrest, he]
        rfl
  rw [hlist d.toList h, Option.map_some, Dict.ofList_toList]

/-- An integer that a floating-point number holds exactly. -/
def Number.isSmall : Number → Bool
  | .int i => i.natAbs < 2 ^ 53
  | .real _ => false

theorem Number.fits_of_isSmall (n : Number) (h : n.isSmall = true) : n.fits = true := by
  cases n with
  | real x => cases h
  | int i =>
      have hsmall : i.natAbs < 2 ^ 53 := by simpa [isSmall] using h
      have hmax : maxWord = 2 ^ 64 - 1 := rfl
      have hmin : twoTo 63 = 2 ^ 63 := rfl
      rw [fits, fitsWord_iff, hmax, hmin]
      omega

theorem fits_nat {n : Nat} (h : IsWord n) : allNumbers Number.fits (nat n) = true :=
  ((nests_iff 0 _).1 (nests_nat 0 h)).2

theorem allNumbers_str (s : String) : allNumbers p (str s) = true := rfl

theorem allNumbers_bool (b : Bool) : allNumbers p (bool b) = true := rfl

theorem allNumbers_strs (l : List String) : allNumbers p (strs l) = true := by
  rw [strs, allNumbers_arr]
  intro j hj
  obtain ⟨s, -, rfl⟩ := List.mem_map.1 hj
  rfl

theorem height_strs (l : List String) : height (strs l) ≤ depth + 1 := by
  rw [strs, height_arr_le_iff]
  intro j hj
  obtain ⟨s, -, rfl⟩ := List.mem_map.1 hj
  exact Nat.zero_le _

theorem height_str (s : String) : height (str s) ≤ depth := Nat.zero_le _

theorem height_nat (n : Nat) : height (nat n) ≤ depth := Nat.zero_le _

end Json

/-! ### Spans and imports -/

structure Span.IsSized (s : Span) : Prop where
  start : IsWord s.start
  stop : IsWord s.stop
  line : IsWord s.line
  column : IsWord s.column

namespace Span

variable {s : Span}

theorem ofJson?_toJson (h : s.IsSized) : ofJson? s.toJson = some s := by
  have hrecord : record shape s.toJson =
      some [some (nat s.start), some (nat s.stop), some (nat s.line), some (nat s.column)] := rfl
  rw [ofJson?, hrecord]
  simp [needed, word_nat_self h.start, word_nat_self h.stop, word_nat_self h.line, word_nat_self h.column]

theorem fits_toJson (h : s.IsSized) : allNumbers Number.fits s.toJson = true := by
  simp [toJson, allNumbers_obj, fits_nat h.start, fits_nat h.stop, fits_nat h.line, fits_nat h.column]

theorem height_toJson (s : Span) (depth : Nat) : height s.toJson ≤ depth + 1 := by
  simp [toJson, height_obj_le_iff, height_nat]

end Span

namespace Specifier

theorem ofJson?_toJson (s : Specifier) : ofJson? s.toJson = some s := rfl

theorem fits_toJson (s : Specifier) : allNumbers Number.fits s.toJson = true := rfl

theorem height_toJson (s : Specifier) (depth : Nat) : height s.toJson ≤ depth + 1 := by
  simp [toJson, height_obj_le_iff, height_str]

end Specifier

namespace Import

variable {i : Import}

theorem ofJson?_toJson (h : i.span.IsSized) : ofJson? i.toJson = some i := by
  have hrecord : record [("source", .required), ("specifiers", .required), ("span", .required)] i.toJson =
      some [some (str i.source), some (arr (i.specifiers.map Specifier.toJson)), some i.span.toJson] := rfl
  rw [ofJson?, hrecord]
  simp [needed, asStr?, listOf_map Specifier.ofJson?_toJson, Span.ofJson?_toJson h]

theorem fits_toJson (h : i.span.IsSized) : allNumbers Number.fits i.toJson = true := by
  simp [toJson, allNumbers_obj, allNumbers_arr, Specifier.fits_toJson, Span.fits_toJson h, allNumbers_str]

theorem height_toJson (i : Import) (depth : Nat) : height i.toJson ≤ depth + 3 := by
  simp [toJson, height_obj_le_iff, height_arr_le_iff, height_str, Specifier.height_toJson, Span.height_toJson]

end Import

namespace Export

theorem ofJson?_toJson (e : Export) : ofJson? e.toJson = some e := by
  cases e <;> rfl

theorem fits_toJson (e : Export) : allNumbers Number.fits e.toJson = true := by
  cases e <;> rfl

theorem height_toJson (e : Export) (depth : Nat) : height e.toJson ≤ depth + 1 := by
  cases e <;> simp [toJson, height_obj_le_iff, height_str]

end Export

/-! ### Declarations -/

/-- The options are in order, as everywhere below them, and their numbers are small integers. -/
structure Builder.Storable (b : Builder) : Prop where
  sorted : (obj b.options).sorted = obj b.options
  small : ∀ o ∈ b.options, allNumbers Number.isSmall o.2 = true

namespace Builder

variable {b : Builder}

theorem ofJson?_toJson (h : b.Storable) : ofJson? b.toJson = some b := by
  obtain ⟨callee, typename, operationType, options⟩ := b
  have hrecord : record shape (toJson ⟨callee, typename, operationType, options⟩) = some [some (strs callee),
      typename.map str, operationType.map str, some (obj options)] := by
    cases typename <;> cases operationType <;> rfl
  have hoptions : options? (obj options) = some options := by
    rw [options?, h.sorted]
    rfl
  have hoptional : ∀ t : Option String, optional asStr? (t.map str) = some t := by
    intro t
    cases t <;> rfl
  rw [ofJson?, hrecord]
  simp [needed, withDefault, listOf_strs, hoptional, hoptions]

theorem fits_toJson (h : b.Storable) : allNumbers Number.fits b.toJson = true := by
  have hoptions : allNumbers Number.fits (obj b.options) = true :=
    allNumbers_obj.2 fun o ho => allNumbers_mono Number.fits_of_isSmall _ (h.small o ho)
  rw [toJson, allNumbers_obj]
  cases b.typename <;> cases b.operationType <;> simp [optField, allNumbers_strs, hoptions, allNumbers_str]

theorem height_toJson_le_iff {depth : Nat} :
    height b.toJson ≤ depth + 2 ↔ ∀ o ∈ b.options, height o.2 ≤ depth := by
  rw [toJson, height_obj_le_iff]
  cases b.typename <;> cases b.operationType <;>
    simp [optField, height_strs, height_str, height_obj_le_iff]

end Builder

structure Site.Storable (s : Site) : Prop where
  builder : s.builder.Storable
  span : s.span.IsSized

namespace Site

variable {s : Site}

theorem ofJson?_toJson (h : s.Storable) : ofJson? s.toJson = some s := by
  obtain ⟨path, kind, builder, references, isTopLevel, exportBinding, span⟩ := s
  have hrecord : record shape (toJson ⟨path, kind, builder, references, isTopLevel, exportBinding, span⟩) =
      some [some (str path), some (str kind.name), some builder.toJson, some (strs references),
        some (bool isTopLevel), exportBinding.map str, some span.toJson] := by
    cases exportBinding <;> rfl
  have hkind : Kind.ofJson? (str kind.name) = some kind := by cases kind <;> rfl
  have hbinding : optional asStr? (exportBinding.map str) = some exportBinding := by cases exportBinding <;> rfl
  rw [ofJson?, hrecord]
  simp [needed, asStr?, asBool?, hkind, hbinding, listOf_strs, Builder.ofJson?_toJson h.builder,
    Span.ofJson?_toJson h.span]

theorem fits_toJson (h : s.Storable) : allNumbers Number.fits s.toJson = true := by
  rw [toJson, allNumbers_obj]
  cases s.exportBinding <;>
    simp [optField, allNumbers_str, allNumbers_bool, allNumbers_strs, Builder.fits_toJson h.builder,
      Span.fits_toJson h.span]

theorem height_toJson_le_iff {depth : Nat} :
    height s.toJson ≤ depth + 3 ↔ ∀ o ∈ s.builder.options, height o.2 ≤ depth := by
  have hbool : ∀ b, height (bool b) ≤ depth + 2 := fun _ => Nat.zero_le _
  rw [toJson, height_obj_le_iff]
  cases s.exportBinding <;>
    simp [optField, height_strs, height_str, hbool, Builder.height_toJson_le_iff, Span.height_toJson]

end Site

namespace Diagnostic

variable {d : Diagnostic}

theorem ofJson?_toJson (h : d.span.IsSized) : ofJson? d.toJson = some d := by
  obtain ⟨code, message, span⟩ := d
  have hrecord : record [("code", .required), ("message", .required), ("span", .required)]
      (toJson ⟨code, message, span⟩) = some [some (str code.name), some (str message), some span.toJson] := rfl
  have hcode : (constant (str code.name)).bind DiagnosticCode.ofName? = some code := by cases code <;> rfl
  rw [ofJson?, hrecord]
  simp [needed, asStr?, hcode, Span.ofJson?_toJson h]

theorem fits_toJson (h : d.span.IsSized) : allNumbers Number.fits d.toJson = true := by
  simp [toJson, allNumbers_obj, Span.fits_toJson h, allNumbers_str]

theorem height_toJson (d : Diagnostic) (depth : Nat) : height d.toJson ≤ depth + 2 := by
  simp [toJson, height_obj_le_iff, height_str, Span.height_toJson]

end Diagnostic

/-! ### Analyses -/

structure Analysis.Storable (a : Analysis) : Prop where
  imports : ∀ i ∈ a.imports, i.span.IsSized
  declarations : ∀ s ∈ a.declarations, s.Storable
  diagnostics : ∀ d ∈ a.diagnostics, d.span.IsSized

/-- The options of the declarations nest at most so deep. -/
def Analysis.Nests (depth : Nat) (a : Analysis) : Prop :=
  ∀ s ∈ a.declarations, ∀ o ∈ s.builder.options, height o.2 ≤ depth

namespace Analysis

variable {a : Analysis} {depth : Nat}

theorem ofJson?_toJson (h : a.Storable) : ofJson? a.toJson = some a := by
  have hrecord : record shape a.toJson = some [some (str a.file), some (arr (a.imports.map Import.toJson)),
      some (arr (a.exports.map Export.toJson)), some (arr (a.declarations.map Site.toJson)),
      some (arr (a.diagnostics.map Diagnostic.toJson))] := rfl
  rw [ofJson?, hrecord]
  simp [needed, asStr?, listOf_map_of_mem fun i hi => Import.ofJson?_toJson (h.imports i hi),
    listOf_map Export.ofJson?_toJson, listOf_map_of_mem fun s hs => Site.ofJson?_toJson (h.declarations s hs),
    listOf_map_of_mem fun d hd => Diagnostic.ofJson?_toJson (h.diagnostics d hd)]

theorem fits_toJson (h : a.Storable) : allNumbers Number.fits a.toJson = true := by
  simp only [toJson, allNumbers_obj, List.forall_mem_cons, allNumbers_arr, List.forall_mem_map]
  exact ⟨rfl, fun i hi => Import.fits_toJson (h.imports i hi), fun e _ => e.fits_toJson,
    fun s hs => Site.fits_toJson (h.declarations s hs), fun d hd => Diagnostic.fits_toJson (h.diagnostics d hd),
    nofun⟩

theorem height_toJson_le_iff : height a.toJson ≤ depth + 5 ↔ a.Nests depth := by
  simp only [toJson, height_obj_le_iff, List.forall_mem_cons, height_arr_le_iff, List.forall_mem_map,
    Site.height_toJson_le_iff]
  constructor
  · rintro ⟨-, -, -, hsites, -⟩
    exact hsites
  · intro h
    exact ⟨height_str _, fun i _ => i.height_toJson depth, fun e _ => e.height_toJson (depth + 2), h,
      fun d _ => d.height_toJson (depth + 1), nofun⟩

end Analysis
end StaticGql
