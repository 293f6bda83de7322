import StaticGql.Graph.Check
import StaticGql.Proofs.Graph.Cycles
import StaticGql.Proofs.Graph.References

/-!
What passes the check of a graph: no cycle of composition, and no name that two operations go by.
-/

namespace StaticGql.Graph

open Relation

variable {g : Graph} {l : List Declaration} {a b : CanonicalId} {d : Declaration}

/-! ### Names of operations -/

/-- The ids of the operations of one name, in the order of the declarations. -/
def idsNamed (name : String) (l : List Declaration) : List CanonicalId :=
  (l.filter fun d => d.operationName? = some name).map (·.id)

/-- One more declaration among the operations by their names. -/
def addName (acc : Dict (List CanonicalId)) (d : Declaration) : Dict (List CanonicalId) :=
  match d.operationName? with
  | some name => acc.insert name ((acc.get? name).getD [] ++ [d.id])
  | none => acc

theorem getD_addName (acc : Dict (List CanonicalId)) (d : Declaration) (name : String) :
    ((addName acc d).get? name).getD [] = (acc.get? name).getD [] ++ idsNamed name [d] := by
  rw [addName]
  cases hd : d.operationName? with
  | none => simp [idsNamed, hd]
  | some name' =>
      by_cases hname : name' = name
      · subst hname
        simp [idsNamed, hd, Dict.get?_insert]
      · simp [idsNamed, hd, Dict.get?_insert, hname]

theorem getD_operationsByName (g : Graph) (name : String) :
    (g.operationsByName.get? name).getD [] = idsNamed name g.toList := by
  have hfold : ∀ (l : List Declaration) (acc : Dict (List CanonicalId)),
      ((l.foldl addName acc).get? name).getD [] = (acc.get? name).getD [] ++ idsNamed name l := by
    intro l
    induction l with
    | nil => simp [idsNamed]
    | cons d l ih =>
        intro acc
        rw [List.foldl_cons, ih, getD_addName, List.append_assoc]
        congr 1
        simp only [idsNamed, ← List.map_append, ← List.filter_append, List.singleton_append]
  exact hfold g.toList ∅

/-- No two operations go by one name. -/
def NamesApart (g : Graph) : Prop := ∀ d ∈ g.toList, ∀ d' ∈ g.toList, ∀ name,
  d.operationName? = some name → d'.operationName? = some name → d = d'

theorem length_le_one_iff (h : l.Nodup) : l.length ≤ 1 ↔ ∀ d ∈ l, ∀ d' ∈ l, d = d' := by
  rcases l with _ | ⟨d, _ | ⟨d', rest⟩⟩
  · simp
  · simp
  · simp only [List.length_cons]
    refine ⟨fun hlength => by omega, fun hall => ?_⟩
    have heq := hall d (by simp) d' (by simp)
    simp [heq] at h

theorem length_idsNamed_le_iff (hg : g.Keyed) (name : String) :
    (idsNamed name g.toList).length ≤ 1 ↔ ∀ d ∈ g.toList, ∀ d' ∈ g.toList,
      d.operationName? = some name → d'.operationName? = some name → d = d' := by
  have hnodup : (g.toList.filter fun d => d.operationName? = some name).Nodup :=
    (List.Nodup.of_map _ (nodup_ids hg)).filter _
  rw [idsNamed, List.length_map, length_le_one_iff hnodup]
  simp only [List.mem_filter, decide_eq_true_eq]
  constructor
  · exact fun h d hd d' hd' hname hname' => h d ⟨hd, hname⟩ d' ⟨hd', hname'⟩
  · exact fun h d hd d' hd' => h d hd.1 d' hd'.1 hd.2 hd'.2

theorem duplicates_eq_nil_iff (hg : g.Keyed) : g.duplicates = [] ↔ g.NamesApart := by
  have hlists : g.duplicates = [] ↔ ∀ name, (idsNamed name g.toList).length ≤ 1 := by
    rw [duplicates, List.filter_eq_nil_iff]
    constructor
    · intro h name
      rw [← getD_operationsByName]
      cases hids : g.operationsByName.get? name with
      | none => simp
      | some ids => simpa using h (name, ids) (Dict.mem_toList_iff.2 hids)
    · rintro h ⟨name, ids⟩ hids
      have := h name
      rw [← getD_operationsByName, Dict.mem_toList_iff.1 hids] at this
      simpa using this
  rw [hlists]
  constructor
  · exact fun h d hd d' hd' name => (length_idsNamed_le_iff hg name).1 (h name) d hd d' hd'
  · exact fun h name => (length_idsNamed_le_iff hg name).2 fun d hd d' hd' => h d hd d' hd' name

/-! ### The check -/

theorem check_eq_ok_iff : g.check = .ok () ↔ g.cycles = [] ∧ g.duplicates = [] := by
  have hfaults : g.check = .ok () ↔ g.faults = [] := by
    rw [check]
    split
    · rename_i h
      simp [h]
    · rename_i h
      simp [h]
  rw [hfaults, faults, List.append_eq_nil_iff, List.map_eq_nil_iff, List.map_eq_nil_iff]

/-! ### Loops of references -/

/-- A loop of references runs through a declaration of a kind that is not composed. -/
def LoopsOutside (g : Graph) : Prop :=
  ∃ a d, g.get? a = some d ∧ d.kind.isComposable = false ∧ TransGen g.Refers a a

theorem isComposable_of_get? (hd : g.get? a = some d) : g.isComposable a = d.kind.isComposable := by
  simp [isComposable, kind?, hd]

/-- Where references lead, composition leads as well, unless the way is through a declaration that is
not composed. -/
theorem composes_or_outside (h : TransGen g.Refers a b) : TransGen g.Composes a b ∨
    ∃ c, g.isComposable c = false ∧ ReflTransGen g.Refers a c ∧ ReflTransGen g.Refers c b := by
  have hstep : ∀ {x y}, g.Refers x y →
      g.Composes x y ∨ g.isComposable x = false ∨ g.isComposable y = false := by
    intro x y hxy
    cases hx : g.isComposable x with
    | false => exact .inr (.inl rfl)
    | true =>
        cases hy : g.isComposable y with
        | false => exact .inr (.inr rfl)
        | true => exact .inl ⟨hx, hy, hxy⟩
  induction h with
  | single hab =>
      obtain hcomposes | ha | hb := hstep hab
      · exact .inl (.single hcomposes)
      · exact .inr ⟨a, ha, .refl, .single hab⟩
      · exact .inr ⟨_, hb, .single hab, .refl⟩
  | tail hab hbc ih =>
      obtain hcomposes | ⟨c, hc, hac, hcb⟩ := ih
      · obtain hstep | hb | hc := hstep hbc
        · exact .inl (hcomposes.tail hstep)
        · exact .inr ⟨_, hb, hab.to_reflTransGen, .single hbc⟩
        · exact .inr ⟨_, hc, hab.to_reflTransGen.tail hbc, .refl⟩
      · exact .inr ⟨c, hc, hac, hcb.tail hbc⟩

/-- The loops that a check lets through. -/
theorem loopsOutside_of_check (hg : g.Keyed) (hcheck : g.check = .ok ()) (ha : TransGen g.Refers a a) :
    g.LoopsOutside := by
  obtain hcomposes | ⟨c, hc, hac, hca⟩ := composes_or_outside ha
  · exact absurd hcomposes ((cycles_eq_nil_iff hg).1 (check_eq_ok_iff.1 hcheck).1 a)
  · have hloop : TransGen g.Refers c c := (TransGen.trans_right hca ha).trans_left hac
    obtain ⟨x, hx, -⟩ := TransGen.head'_iff.1 hloop
    obtain ⟨d, hd, -⟩ := hx.exists_left
    exact ⟨c, d, hd, isComposable_of_get? hd ▸ hc, hloop⟩

/-! ### What passes -/

/-- The cycles told are in order, each once, and each is a cycle of composition; wherever declarations
can be reached from each other in a circle one of the cycles told runs among them. So none is told exactly
if there is none, and a graph passes exactly if moreover no two operations share a name. -/
theorem cycles_and_check (declarations : List Declaration) :
    let g := Graph.ofList declarations
    g.cycles.Pairwise Precedes ∧ (∀ c ∈ g.cycles, g.IsCycle c) ∧
      (∀ a, TransGen g.Composes a a → ∃ c ∈ g.cycles,
        ∀ b ∈ c, ReflTransGen g.Composes a b ∧ ReflTransGen g.Composes b a) ∧
      (g.cycles = [] ↔ ∀ a, ¬ TransGen g.Composes a a) ∧
      (g.check = .ok () ↔ g.cycles = [] ∧ g.NamesApart) := by
  intro g
  have hg : g.Keyed := keyed_ofList declarations
  refine ⟨pairwise_cycles g, fun c hc => isCycle_of_mem hc, fun a ha => exists_cycle hg ha,
    cycles_eq_nil_iff hg, ?_⟩
  rw [check_eq_ok_iff, duplicates_eq_nil_iff hg]

end StaticGql.Graph
