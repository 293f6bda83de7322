import Mathlib.Tactic.ByContra
import StaticGql.Frontend
import StaticGql.Proofs.Analysis.Events
import StaticGql.Script.Walk

/-!
Where the two frontends that parse agree. They walk through one tree, each in its own order, and they count
names by rules of their own. The constructs of a program and the literals and names in them are the same in both
forms; so the frontends agree on a program as long as no parts that report something trade places, and each call
of the marker reads alike by itself.
-/

namespace StaticGql
namespace Script

variable {scope : Marker.Scope} {node : Node} {text : String} {start stop : Nat} {l : List Tree} {t : Tree}

/-! ### Parts in order -/

/-- The place of a part among those of a construct, in the abstract order. -/
def place (construct part : Node) : Nat :=
  match construct with
  | .classDeclaration | .classExpression =>
    if part = .decorator then 0 else if part = .classBody then 1 else 2
  | .method => if part = .methodKey || part = .parameters then 0 else 1
  | .field => if part ≠ .decorator then 0 else 1
  | _ => 0

/-- Parts that stand in the abstract order already; the body and the condition of a loop never do. -/
def isArranged (construct : Node) (l : List Tree) : Bool :=
  if construct = .doWhile then l.length ≤ 1
  else (l.map fun t => place construct t.node).Pairwise (· ≤ ·)

theorem filter_placedFirst (p : Node → Bool) (q : Tree → Bool) (l : List Tree) :
    (placedFirst p l).filter q = placedFirst p (l.filter q) := by
  rw [placedFirst, placedFirst, List.filter_append, List.filter_filter, List.filter_filter,
    List.filter_filter, List.filter_filter]
  congr 1
  · exact List.filter_congr fun t _ => Bool.and_comm ..
  · exact List.filter_congr fun t _ => Bool.and_comm ..

theorem filter_abstractOrder (node : Node) (q : Tree → Bool) (l : List Tree) :
    (abstractOrder node l).filter q = abstractOrder node (l.filter q) := by
  cases node with
  | classDeclaration | classExpression =>
      simp only [abstractOrder, filter_placedFirst]
  | method | field => simp only [abstractOrder, filter_placedFirst]
  | doWhile => simp only [abstractOrder, List.filter_reverse]
  | _ => rfl

theorem mem_abstractOrder (h : t ∈ abstractOrder node l) : t ∈ l := by
  have hplaced : ∀ (p : Node → Bool) (l : List Tree), t ∈ placedFirst p l → t ∈ l := by
    intro p l ht
    rcases List.mem_append.1 ht with ht | ht
    · exact (List.mem_filter.1 ht).1
    · exact (List.mem_filter.1 ht).1
  cases node with
  | classDeclaration | classExpression =>
      rw [abstractOrder] at h
      exact hplaced _ _ (hplaced _ _ h)
  | method | field =>
      rw [abstractOrder] at h
      exact hplaced _ _ h
  | doWhile => exact List.mem_reverse.1 h
  | _ => exact h

theorem placedFirst_append_cons {p : Node → Bool} {before : List Tree} (h : p t.node = true)
    (hbefore : ∀ u ∈ before, p u.node = false) (l : List Tree) :
    placedFirst p (before ++ t :: l) = t :: placedFirst p (before ++ l) := by
  have hnone : before.filter (fun u => p u.node) = [] := by
    rw [List.filter_eq_nil_iff]
    intro u hu
    simp [hbefore u hu]
  simp [placedFirst, List.filter_append, hnone, h]

theorem placedFirst_of_none {p : Node → Bool} (h : ∀ t ∈ l, p t.node = false) : placedFirst p l = l := by
  rw [placedFirst, List.filter_eq_nil_iff.2, List.filter_eq_self.2, List.nil_append]
  · intro t ht
    simp [h t ht]
  · intro t ht
    simp [h t ht]

theorem placedFirst_eq_self {p : Node → Bool} (h : l.Pairwise fun a b => p b.node = true → p a.node = true) :
    placedFirst p l = l := by
  induction l with
  | nil => rfl
  | cons t l ih =>
      obtain ⟨ht, hl⟩ := List.pairwise_cons.1 h
      by_cases hp : p t.node = true
      · have hrest := placedFirst_append_cons hp (fun _ hu => absurd hu List.not_mem_nil) l
        rw [List.nil_append, List.nil_append, ih hl] at hrest
        exact hrest
      · apply placedFirst_of_none
        intro u hu
        rcases List.mem_cons.1 hu with rfl | hu
        · simpa using hp
        · cases hpu : p u.node with
          | false => rfl
          | true => exact absurd (ht u hu hpu) hp

theorem classOrder_eq_self (h : l.Pairwise fun a b => place .classDeclaration a.node ≤
    place .classDeclaration b.node) : abstractOrder .classDeclaration l = l := by
  induction l with
  | nil => rfl
  | cons t l ih =>
      obtain ⟨ht, hl⟩ := List.pairwise_cons.1 h
      have hrest := ih hl
      simp only [abstractOrder] at hrest ⊢
      by_cases hdecorator : t.node = .decorator
      · have hbody : placedFirst (fun n => n = .classBody) (t :: l) =
            l.filter (fun u => u.node = .classBody) ++ t :: l.filter fun u => !(u.node = .classBody : Bool) := by
          simp [placedFirst, hdecorator]
        have hbodies : ∀ u ∈ l.filter (fun u => u.node = .classBody), (u.node = .decorator : Bool) = false := by
          intro u hu
          have hu : u.node = .classBody := by simpa using (List.mem_filter.1 hu).2
          simp [hu]
        rw [hbody, placedFirst_append_cons (by simp [hdecorator]) hbodies]
        exact congrArg (t :: ·) hrest
      · have hnone : ∀ u ∈ t :: l, u.node ≠ .decorator := by
          intro u hu hnode
          rcases List.mem_cons.1 hu with rfl | hu
          · exact hdecorator hnode
          · have hplace := ht u hu
            simp only [place, hnode, hdecorator, if_true, if_false] at hplace
            split at hplace <;> omega
        have hbody : placedFirst (fun n => n = .classBody) (t :: l) = t :: l := by
          apply placedFirst_eq_self
          refine h.imp_of_mem fun {a b} ha _ hab hb => ?_
          have hb : b.node = .classBody := by simpa using hb
          simp only [place, hb, hnone a ha, reduceCtorEq, if_true, if_false] at hab
          by_contra hbody
          simp_all
        rw [hbody]
        apply placedFirst_of_none
        intro u hu
        simpa using hnone u hu

theorem abstractOrder_eq_self (h : isArranged node l = true) : abstractOrder node l = l := by
  have hpairwise : node ≠ .doWhile → l.Pairwise fun a b => place node a.node ≤ place node b.node := by
    intro hnode
    rw [isArranged, if_neg hnode, decide_eq_true_eq, List.pairwise_map] at h
    exact h
  by_cases hloop : node = .doWhile
  · subst hloop
    have hlength : l.length ≤ 1 := by simpa [isArranged] using h
    match l, hlength with
    | [], _ => rfl
    | [t], _ => rfl
  · have hplaces := hpairwise hloop
    cases node with
    | classDeclaration => exact classOrder_eq_self hplaces
    | classExpression => exact classOrder_eq_self hplaces
    | method =>
        apply placedFirst_eq_self (p := fun n => n = .methodKey || n = .parameters)
        refine hplaces.imp fun {a b} hab hb => ?_
        simp only [place, hb, if_true] at hab
        by_contra ha
        simp [ha] at hab
    | field =>
        apply placedFirst_eq_self (p := fun n => n ≠ .decorator)
        refine hplaces.imp fun {a b} hab hb => ?_
        have hb : b.node ≠ .decorator := by simpa using hb
        simp only [place, hb, ne_eq, not_false_eq_true, if_true] at hab
        by_contra ha
        simp_all
    | doWhile => exact absurd rfl hloop
    | _ => rfl

/-! ### Trees arranged -/

theorem arrangedAll_eq_map (l : List Tree) : arrangedAll l = l.map Tree.arranged := by
  induction l with
  | nil => rfl
  | cons t l ih => rw [arrangedAll, ih, List.map_cons]

@[simp]
theorem node_arranged (t : Tree) : t.arranged.node = t.node := by
  cases t
  rfl

@[simp]
theorem text_arranged (t : Tree) : t.arranged.text = t.text := by
  cases t
  rfl

theorem children_arranged (t : Tree) :
    t.arranged.children = abstractOrder t.node (t.children.map Tree.arranged) := by
  cases t
  rw [Tree.arranged, arrangedAll_eq_map]
  rfl

theorem placedFirst_map (p : Node → Bool) (l : List Tree) :
    placedFirst p (l.map Tree.arranged) = (placedFirst p l).map Tree.arranged := by
  simp [placedFirst, List.filter_map, Function.comp_def]

/-- Arranging parts leaves their order to the construct that they are parts of. -/
theorem abstractOrder_map (node : Node) (l : List Tree) :
    abstractOrder node (l.map Tree.arranged) = (abstractOrder node l).map Tree.arranged := by
  cases node with
  | classDeclaration | classExpression => simp only [abstractOrder, placedFirst_map]
  | method | field => simp only [abstractOrder, placedFirst_map]
  | doWhile => simp only [abstractOrder, List.map_reverse]
  | _ => rfl

theorem chain?_arranged : ∀ t : Tree, t.arranged.chain? = t.chain?
  | .mk node text start stop l => by
      cases node with
      | member =>
          cases l with
          | nil => rfl
          | cons object rest =>
              simp only [Tree.arranged, arrangedAll, abstractOrder, Tree.chain?, chain?_arranged object]
      | _ => rfl

theorem key?_arranged (t : Tree) : t.arranged.key? = t.key? := by
  rw [Tree.key?, Tree.key?, node_arranged, text_arranged]

theorem moduleName?_arranged (t : Tree) : moduleName? t.arranged = moduleName? t := by
  rw [moduleName?, moduleName?, node_arranged, text_arranged]

mutual

theorem value?_arranged : ∀ t : Tree, t.arranged.value? = t.value?
  | .mk node text start stop l => by
      cases node with
      | array => simp only [Tree.arranged, abstractOrder, Tree.value?, values?_arranged l]
      | object => simp only [Tree.arranged, abstractOrder, Tree.value?, Tree.fields, fieldList_arranged l]
      | unary =>
          rcases l with _ | ⟨⟨node', s, a, b, m⟩, _ | ⟨u, rest⟩⟩
          · rfl
          · by_cases hminus : text = "-"
            · subst hminus
              cases node' <;> simp [Tree.arranged, arrangedAll, abstractOrder, Tree.value?]
            · simp [Tree.arranged, arrangedAll, abstractOrder, Tree.value?, hminus]
          · simp [Tree.arranged, arrangedAll, abstractOrder, Tree.value?]
      | _ => simp [Tree.arranged, abstractOrder, Tree.value?]

theorem values?_arranged : ∀ l : List Tree, Tree.values? (arrangedAll l) = Tree.values? l
  | [] => rfl
  | t :: l => by rw [arrangedAll, Tree.values?, Tree.values?, value?_arranged t, values?_arranged l]

theorem field?_arranged : ∀ t : Tree, t.arranged.field? = t.field?
  | .mk node text start stop l => by
      cases node with
      | pair =>
          rcases l with _ | ⟨k, _ | ⟨v, _ | ⟨u, rest⟩⟩⟩
          · rfl
          · simp [Tree.arranged, arrangedAll, abstractOrder, Tree.field?]
          · simp only [Tree.arranged, arrangedAll, abstractOrder, Tree.field?, key?_arranged, value?_arranged v]
          · simp [Tree.arranged, arrangedAll, abstractOrder, Tree.field?]
      | _ => simp [Tree.arranged, abstractOrder, Tree.field?]

theorem fieldList_arranged : ∀ l : List Tree, Tree.fieldList (arrangedAll l) = Tree.fieldList l
  | [] => rfl
  | t :: l => by rw [arrangedAll, Tree.fieldList, Tree.fieldList, field?_arranged t, fieldList_arranged l]

end

theorem options_arranged (l : List Tree) : Tree.options (arrangedAll l) = Tree.options l := by
  rcases l with _ | ⟨⟨node, text, start, stop, m⟩, rest⟩
  · rfl
  · cases node with
    | object =>
        simp only [arrangedAll, Tree.arranged, abstractOrder, Tree.options, Tree.fields, fieldList_arranged m]
    | _ => simp [arrangedAll, Tree.arranged, abstractOrder, Tree.options]

/-! ### Builder calls -/

/-- What a function yields is no tagged template, and if it is a call its arguments stand in a list. -/
def isPlainBuilder : Tree → Bool
  | .mk .paren _ _ _ [e] => isPlainBuilder e
  | .mk .call _ _ _ [_, arguments] => arguments.node = .arguments
  | .mk .tagged .. => false
  | _ => true

theorem children_arguments (h : t.node = .arguments) : t.arranged.children = arrangedAll t.children := by
  rw [children_arranged, h, arrangedAll_eq_map]
  rfl

theorem builder_arranged : ∀ t : Tree, isPlainBuilder t = true →
    t.arranged.builder .abstract = t.builder .concrete
  | .mk node text start stop l => by
      intro h
      cases node with
      | paren =>
          rcases l with _ | ⟨e, _ | ⟨u, rest⟩⟩
          · rfl
          · rw [isPlainBuilder] at h
            simp only [Tree.arranged, arrangedAll, abstractOrder, Tree.builder, builder_arranged e h]
          · simp [Tree.arranged, arrangedAll, abstractOrder, Tree.builder]
      | call =>
          rcases l with _ | ⟨callee, _ | ⟨arguments, _ | ⟨u, rest⟩⟩⟩
          · rfl
          · simp [Tree.arranged, arrangedAll, abstractOrder, Tree.builder]
          · have harguments : arguments.node = .arguments := by simpa [isPlainBuilder] using h
            simp only [Tree.arranged, arrangedAll, abstractOrder, Tree.builder, chain?_arranged,
              children_arguments harguments, options_arranged]
          · simp [Tree.arranged, arrangedAll, abstractOrder, Tree.builder]
      | tagged => simp [isPlainBuilder] at h
      | _ => simp [Tree.arranged, abstractOrder, Tree.builder]

theorem yielded?_arranged (t : Tree) : t.arranged.yielded? = t.yielded?.map Tree.arranged := by
  rw [Tree.yielded?, Tree.yielded?, node_arranged]
  split
  · rename_i hblock
    rw [children_arranged, hblock]
    simp only [abstractOrder, List.find?_map, Function.comp_def, node_arranged]
    cases hresult : t.children.find? fun u => decide (u.node = .result) with
    | none => rfl
    | some u =>
        have hnode : u.node = .result := by simpa using List.find?_some hresult
        simp only [Option.map_some, Option.bind_some, children_arranged, hnode, abstractOrder, List.head?_map]
  · rfl

/-- The call yields a plain builder call, if it yields anything. -/
def isPlainShape (arguments : List Tree) : Bool :=
  match arguments with
  | [.mk .arrow _ _ _ [_, body]] | [.mk .functionExpression _ _ _ [_, body]] =>
    body.yielded?.all isPlainBuilder
  | _ => true

/-- What a function with this body is taken for. -/
def bodyShape (form : Form) (body : Tree) : CallShape :=
  match body.yielded? with
  | some e => e.builder form
  | none => .builder none []

theorem bodyShape_arranged (body : Tree) (h : body.yielded?.all isPlainBuilder = true) :
    bodyShape .abstract body.arranged = bodyShape .concrete body := by
  rw [bodyShape, bodyShape, yielded?_arranged]
  cases hy : body.yielded? with
  | none => rfl
  | some e =>
      rw [hy] at h
      exact builder_arranged e h

theorem shape_arranged {arguments : List Tree} (h : isPlainShape arguments = true) :
    Tree.shape .abstract (arrangedAll arguments) = Tree.shape .concrete arguments := by
  rcases arguments with _ | ⟨⟨node, text, start, stop, l⟩, _ | ⟨u, rest⟩⟩
  · rfl
  · cases node with
    | arrow | functionExpression =>
        rcases l with _ | ⟨p, _ | ⟨body, _ | ⟨u, rest⟩⟩⟩
        · rfl
        · rfl
        · exact bodyShape_arranged body h
        · rfl
    | _ => rfl
  · simp [arrangedAll, Tree.shape]

/-! ### Programs that read alike -/

/-- The part tells something where it stands in a construct. -/
def reports (scope : Marker.Scope) (t : Tree) : Bool := !(walk scope .concrete false false t).isEmpty

/-- Both forms count the same names. -/
def hasSameNames (t : Tree) : Bool :=
  (t.arranged.names .abstract).all (· ∈ t.names .concrete) &&
    (t.names .concrete).all (· ∈ t.arranged.names .abstract)

/-- The call of the marker is the same event in both forms, but for the order of names. -/
def isPlainCall (t : Tree) : Bool :=
  match t.children with
  | [_, arguments] =>
    arguments.node = .arguments && isPlainShape arguments.children && hasSameNames t
  | _ => true

/-- The default export is the word `undefined`, which only one form takes for a name. -/
def exportsUndefined (node : Node) (l : List Tree) : Bool :=
  node = .exportDefault && l.any fun t => t.node = .identifier && t.text = "undefined"

mutual

/-- The tree is walked through alike in both forms. -/
def readsAlike (scope : Marker.Scope) : Tree → Bool
  | .mk node text start stop l =>
    match Tree.markerCall? scope .concrete (.mk node text start stop l) with
    | some (.call ..) => isPlainCall (.mk node text start stop l)
    | some _ => true
    | none =>
      isArranged node (l.filter (reports scope)) && !exportsUndefined node l && allReadAlike scope l

def allReadAlike (scope : Marker.Scope) : List Tree → Bool
  | [] => true
  | t :: l => readsAlike scope t && allReadAlike scope l

end

/-! ### Walking in both forms -/

/-- Walks that report alike. -/
def WalksAlike (scope : Marker.Scope) (top exported : Bool) (t : Tree) : Prop :=
  List.Forall₂ Event.Alike (walk scope .abstract top exported t.arranged)
    (walk scope .concrete top exported t)

theorem walkAll_eq (form : Form) (top exported : Bool) (l : List Tree) :
    walkAll scope form top exported l = l.flatMap (walk scope form top exported) := by
  induction l with
  | nil => rfl
  | cons t l ih => rw [walkAll, ih, List.flatMap_cons]

theorem walkAll_alike (top exported : Bool) (h : ∀ t ∈ l, WalksAlike scope top exported t) :
    List.Forall₂ Event.Alike (walkAll scope .abstract top exported (arrangedAll l))
      (walkAll scope .concrete top exported l) := by
  rw [arrangedAll_eq_map, walkAll_eq, walkAll_eq, List.flatMap_map]
  induction l with
  | nil => exact .nil
  | cons t l ih =>
      rw [List.flatMap_cons, List.flatMap_cons]
      exact List.rel_append (h t (by simp)) (ih fun u hu => h u (List.mem_cons_of_mem t hu))

theorem flatMap_filter_reports (l : List Tree) :
    (l.filter (reports scope)).flatMap (walk scope .concrete false false) =
      l.flatMap (walk scope .concrete false false) := by
  induction l with
  | nil => rfl
  | cons t l ih =>
      by_cases ht : reports scope t = true
      · rw [List.filter_cons_of_pos ht, List.flatMap_cons, List.flatMap_cons, ih]
      · have hempty : walk scope .concrete false false t = [] := by simpa [reports] using ht
        rw [List.filter_cons_of_neg ht, List.flatMap_cons, hempty, ih, List.nil_append]

/-- Parts that trade places make no difference unless they report something. -/
theorem walkAll_abstractOrder (h : ∀ t ∈ l, WalksAlike scope false false t)
    (harranged : isArranged node (l.filter (reports scope)) = true) :
    List.Forall₂ Event.Alike (walkAll scope .abstract false false (abstractOrder node (arrangedAll l)))
      (walkAll scope .concrete false false l) := by
  have hsame : walkAll scope .concrete false false (abstractOrder node l) =
      walkAll scope .concrete false false l := by
    rw [walkAll_eq, walkAll_eq, ← flatMap_filter_reports, filter_abstractOrder,
      abstractOrder_eq_self harranged, flatMap_filter_reports]
  rw [arrangedAll_eq_map, abstractOrder_map, ← arrangedAll_eq_map, ← hsame]
  apply walkAll_alike
  exact fun t ht => h t (mem_abstractOrder ht)

/-! ### Calls of the marker in both forms -/

theorem names_arranged (h : hasSameNames t = true) (n : String) :
    n ∈ t.arranged.names .abstract ↔ n ∈ t.names .concrete := by
  rw [hasSameNames, Bool.and_eq_true, List.all_eq_true, List.all_eq_true] at h
  constructor
  · intro hn
    simpa using h.1 n hn
  · intro hn
    simpa using h.2 n hn

/-- What a call is, by the names that its callee is made of. -/
def callEvent? (scope : Marker.Scope) (start stop : Nat) (event : List String → Event)
    (callee : Option (List String)) : Option Event :=
  match callee with
  | none => none
  | some [name] => if scope.isRoot name then some (.directCall start stop) else none
  | some chain => if scope.matchesCallee chain then some (event chain) else none

theorem markerCall?_arranged (h : ∀ callee shape names start stop,
    t.markerCall? scope .concrete = some (.call callee shape names start stop) → isPlainCall t = true) :
    Option.Rel Event.Alike (t.arranged.markerCall? scope .abstract) (t.markerCall? scope .concrete) := by
  obtain ⟨node, text, start, stop, l⟩ := t
  cases node with
  | call =>
      rcases l with _ | ⟨callee, _ | ⟨arguments, _ | ⟨u, rest⟩⟩⟩
      · exact .none
      · exact .none
      · have hunfold : ∀ (form : Form) (callee arguments : Tree), Tree.markerCall? scope form
            (.mk .call text start stop [callee, arguments]) =
            callEvent? scope start stop (fun chain => .call chain (Tree.shape form arguments.children)
              (Tree.names form (.mk .call text start stop [callee, arguments])) start stop) callee.chain? :=
          fun _ _ _ => rfl
        have harranged : (Tree.mk .call text start stop [callee, arguments]).arranged =
            .mk .call text start stop [callee.arranged, arguments.arranged] := rfl
        rw [hunfold] at h
        rw [harranged, hunfold, hunfold, chain?_arranged]
        unfold callEvent? at h ⊢
        split
        · exact .none
        · split
          · exact .some (.refl _)
          · exact .none
        · split
          · rename_i chain hsingle hchain hmatches
            have hplain := h chain (Tree.shape .concrete arguments.children)
              (Tree.names .concrete (.mk .call text start stop [callee, arguments])) start stop (by
                simp only [hchain, hmatches, if_true])
            have hparts : isPlainCall (.mk .call text start stop [callee, arguments]) =
                (arguments.node = .arguments && isPlainShape arguments.children &&
                  hasSameNames (.mk .call text start stop [callee, arguments])) := rfl
            rw [hparts, Bool.and_eq_true, Bool.and_eq_true, decide_eq_true_eq] at hplain
            obtain ⟨⟨harguments, hshape⟩, hnames⟩ := hplain
            rw [children_arguments harguments, shape_arranged hshape, ← harranged]
            exact .some (.call _ _ _ _ (names_arranged hnames))
          · exact .none
      · exact .none
  | _ => exact .none

/-! ### Everything else in both forms -/

theorem entering_alike {name : String} {events events' : List Event}
    (h : List.Forall₂ Event.Alike events events') :
    List.Forall₂ Event.Alike (entering name events) (entering name events') :=
  .cons (.refl _) (List.rel_append h (.cons (.refl _) .nil))

theorem same_alike (events : List Event) : List.Forall₂ Event.Alike events events :=
  List.forall₂_same.2 fun e _ => .refl e

theorem assignedName?_arranged (op : String) (target : Tree) :
    assignedName? op target.arranged = assignedName? op target := by
  rw [assignedName?, assignedName?, chain?_arranged]

theorem exportName?_arranged (source : Option String) (t : Tree) :
    exportName? source t.arranged = exportName? source t := by
  obtain ⟨node, text, start, stop, l⟩ := t
  cases node with
  | exportName =>
      rcases l with _ | ⟨own, _ | ⟨exported, _ | ⟨u, rest⟩⟩⟩
      · rfl
      · rfl
      · simp only [Tree.arranged, arrangedAll, abstractOrder, exportName?, moduleName?_arranged]
      · rfl
  | _ => rfl

theorem exportNames_arranged (l : List Tree) : exportNames (arrangedAll l) = exportNames l := by
  have hsource : ((arrangedAll l).find? fun t => decide (t.node = .quoted)).bind moduleName? =
      (l.find? fun t => decide (t.node = .quoted)).bind moduleName? := by
    rw [arrangedAll_eq_map, List.find?_map]
    simp only [Function.comp_def, node_arranged]
    cases l.find? fun t => decide (t.node = .quoted) with
    | none => rfl
    | some t => exact moduleName?_arranged t
  rw [exportNames, exportNames, hsource, arrangedAll_eq_map, List.filterMap_map]
  simp only [Function.comp_def, exportName?_arranged]

theorem exportAll_arranged (l : List Tree) : exportAll (arrangedAll l) = exportAll l := by
  cases l with
  | nil => rfl
  | cons source rest => simp only [arrangedAll, exportAll, List.head?_cons, Option.bind_some,
      moduleName?_arranged]

theorem exportAllAs_arranged (l : List Tree) : exportAllAs (arrangedAll l) = exportAllAs l := by
  rcases l with _ | ⟨source, _ | ⟨name, _ | ⟨u, rest⟩⟩⟩
  · rfl
  · rfl
  · simp only [arrangedAll, exportAllAs, moduleName?_arranged]
  · rfl

theorem defaultNames_arranged (h : exportsUndefined .exportDefault [t] = false) :
    defaultNames .abstract t.arranged = defaultNames .concrete t := by
  rw [defaultNames, defaultNames, node_arranged, text_arranged]
  by_cases hnode : t.node = .identifier
  · have htext : t.text ≠ "undefined" := by
      intro htext
      simp [exportsUndefined, hnode, htext] at h
    simp [hnode, htext]
  · split <;> first | contradiction | rfl

theorem markerCall?_none_arranged (h : t.markerCall? scope .concrete = none) :
    t.arranged.markerCall? scope .abstract = none := by
  have halike : Option.Rel Event.Alike (t.arranged.markerCall? scope .abstract)
      (t.markerCall? scope .concrete) := markerCall?_arranged (by simp [h])
  rw [h] at halike
  generalize t.arranged.markerCall? scope .abstract = e at halike
  cases halike
  rfl

/-- A tree whose parts are walked through alike is walked through alike, if it is no call of the marker. -/
theorem walk_of_parts (hcall : Tree.markerCall? scope .concrete (.mk node text start stop l) = none)
    (harranged : isArranged node (l.filter (reports scope)) = true)
    (hundefined : exportsUndefined node l = false)
    (hparts : ∀ t ∈ l, ∀ top exported, WalksAlike scope top exported t) (top exported : Bool) :
    WalksAlike scope top exported (.mk node text start stop l) := by
  have hall : ∀ top exported, List.Forall₂ Event.Alike
      (walkAll scope .abstract top exported (arrangedAll l)) (walkAll scope .concrete top exported l) :=
    fun top exported => walkAll_alike top exported fun t ht => hparts t ht top exported
  have hordered := walkAll_abstractOrder (fun t ht => hparts t ht false false) harranged
  have hrest : ∀ (t : Tree) (rest : List Tree), l = t :: rest → List.Forall₂ Event.Alike
      (walkAll scope .abstract false false (arrangedAll rest)) (walkAll scope .concrete false false rest) :=
    fun t rest hl => walkAll_alike false false fun u hu => hparts u (by simp [hl, hu]) false false
  rw [WalksAlike, Tree.arranged]
  cases node with
  | importStatement => exact .nil
  | interface | «alias» | enumeration => exact same_alike _
  | module => exact hall true false
  | variableList | ambient => exact hall top exported
  | exportDeclaration => exact hall top true
  | declarator =>
      cases l with
      | nil => exact .nil
      | cons target value =>
          have hvalue := hrest target value rfl
          have hempty : (arrangedAll value).isEmpty = value.isEmpty := by
            rw [arrangedAll_eq_map, List.isEmpty_map]
          simp only [abstractOrder, arrangedAll, walk, node_arranged, text_arranged, hempty]
          by_cases hname : target.node = .bindingName
          · rw [if_pos hname, if_pos hname]
            apply List.rel_append (same_alike _)
            split
            · exact .nil
            · exact entering_alike hvalue
          · rw [if_neg hname, if_neg hname]
            split
            · exact .nil
            · exact .cons (.refl _) (List.rel_append hvalue (.cons (.refl _) .nil))
  | function => exact List.rel_append (same_alike _) (entering_alike (hall false false))
  | classDeclaration => exact List.rel_append (same_alike _) hordered
  | exportNames =>
      simp only [abstractOrder, walk, exportNames_arranged]
      exact same_alike _
  | exportAll =>
      simp only [abstractOrder, walk, exportAll_arranged]
      exact same_alike _
  | exportAllAs =>
      simp only [abstractOrder, walk, exportAllAs_arranged]
      exact same_alike _
  | exportDefault =>
      rcases l with _ | ⟨value, _ | ⟨u, rest⟩⟩
      · exact .nil
      · simp only [abstractOrder, arrangedAll, walk, node_arranged, defaultNames_arranged hundefined]
        apply entering_alike
        apply List.rel_append (same_alike _)
        by_cases hnode : value.node = .interface
        · simp [hnode]
        · simp only [hnode, if_false]
          exact hparts value (by simp) false false
      · exact hall false false
  | pair =>
      cases l with
      | nil => exact .nil
      | cons key value =>
          have hinside := List.rel_append (hparts key (by simp) false false) (hrest key value rfl)
          simp only [abstractOrder, arrangedAll, walk, key?_arranged]
          split
          · exact entering_alike hinside
          · exact hinside
  | assign =>
      cases l with
      | nil => exact .nil
      | cons target value =>
          simp only [abstractOrder, arrangedAll, walk, assignedName?_arranged]
          split
          · exact .cons (.refl _) (entering_alike (hrest target value rfl))
          · exact List.rel_append (hparts target (by simp) false false) (hrest target value rfl)
  | call =>
      have harranged : Tree.markerCall? scope .abstract (.mk .call text start stop (arrangedAll l)) = none :=
        markerCall?_none_arranged hcall
      simp only [abstractOrder, walk, hcall, harranged]
      exact hall false false
  | _ => exact hordered

theorem node_of_markerCall? {form : Form} {e : Event}
    (h : Tree.markerCall? scope form (.mk node text start stop l) = some e) : node = .call := by
  cases node with
  | call => rfl
  | _ => cases h

theorem walk_of_call {e : Event}
    (hcall : Tree.markerCall? scope .concrete (.mk .call text start stop l) = some e)
    (hplain : ∀ callee shape names start stop, e = .call callee shape names start stop →
      isPlainCall (.mk .call text start stop l) = true) (top exported : Bool) :
    WalksAlike scope top exported (.mk .call text start stop l) := by
  have halike : Option.Rel Event.Alike
      (Tree.markerCall? scope .abstract (Tree.mk .call text start stop l).arranged)
      (Tree.markerCall? scope .concrete (.mk .call text start stop l)) :=
    markerCall?_arranged fun callee shape names start stop h =>
      hplain callee shape names start stop (Option.some.inj (hcall.symm.trans h))
  rw [hcall] at halike
  obtain ⟨e', harranged, he⟩ : ∃ e',
      Tree.markerCall? scope .abstract (.mk .call text start stop (arrangedAll l)) = some e' ∧
      e'.Alike e := by
    rw [show Tree.mk .call text start stop (arrangedAll l) = (Tree.mk .call text start stop l).arranged from rfl]
    generalize Tree.markerCall? scope .abstract (Tree.mk .call text start stop l).arranged = o at halike
    cases halike with
    | some he => exact ⟨_, rfl, he⟩
  rw [WalksAlike, Tree.arranged]
  simp only [abstractOrder, walk, hcall, harranged]
  exact .cons he .nil

mutual

/-- A program that reads alike is walked through alike in both forms. -/
theorem walksAlike : ∀ t : Tree, readsAlike scope t = true → ∀ top exported, WalksAlike scope top exported t
  | .mk node text start stop l => by
      intro h
      rw [readsAlike] at h
      split at h
      · rename_i callee shape names start' stop' hcall
        obtain rfl := node_of_markerCall? hcall
        exact walk_of_call hcall fun _ _ _ _ _ _ => h
      · rename_i e hnotcall hcall
        obtain rfl := node_of_markerCall? hcall
        apply walk_of_call hcall
        intro callee shape names start' stop' he
        exact absurd he (hnotcall callee shape names start' stop')
      · rename_i hcall
        rw [Bool.and_eq_true, Bool.and_eq_true, Bool.not_eq_true'] at h
        obtain ⟨⟨harranged, hundefined⟩, hparts⟩ := h
        exact walk_of_parts hcall harranged hundefined (allWalkAlike l hparts)

theorem allWalkAlike : ∀ l : List Tree, allReadAlike scope l = true →
    ∀ t ∈ l, ∀ top exported, WalksAlike scope top exported t
  | [] => fun _ t ht => absurd ht List.not_mem_nil
  | u :: l => by
      intro h t ht
      rw [allReadAlike, Bool.and_eq_true] at h
      rcases List.mem_cons.1 ht with htu | ht
      · rw [htu]
        exact walksAlike u h.1
      · exact allWalkAlike l h.2 t ht

end

end Script

/-! ### Texts that read alike -/

namespace Frontend

open Script (parse? readsAlike import?)

/-- The text is no program, or one that reads alike in both forms. -/
def parsesAlike (marker : Marker) (file text : String) : Bool :=
  (parse? (holdsElements file) text).all fun program =>
    readsAlike (marker.scope ((program.children.filterMap import?).map fun i => (i.source, i.specifiers))) program

/-- The frontends that parse give one answer for a text that reads alike. -/
theorem parsers_agree (marker : Marker) (file text : String) (h : parsesAlike marker file text = true) :
    abstractTree.analyze marker file text = concreteTree.analyze marker file text := by
  rw [parsesAlike] at h
  simp only [analyze, Script.analyze?]
  cases hprogram : parse? (holdsElements file) text with
  | none => rfl
  | some program =>
      rw [hprogram, Option.all_some] at h
      simp only [Option.map_some, Except.ok.injEq]
      apply Analysis.ofEvents_congr
      exact Script.walksAlike program h true false

end Frontend
end StaticGql
