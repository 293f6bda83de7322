import StaticGql.Proofs.Except
import StaticGql.Proofs.Json.Numbers
import StaticGql.Proofs.Json.Unambiguous

/-!
Reading what was written, on one line or indented. Whatever is read is what was written, except for
numbers that a text does not keep; and something is read wherever containers do not nest too deep.
-/

namespace StaticGql.Json

mutual

/-- A value as far as its text keeps it. -/
def plain : Json → Json
  | num n => num n.plain
  | arr items => arr (plainItems items)
  | obj fields => obj (plainFields fields)
  | j => j

def plainItems : List Json → List Json
  | [] => []
  | j :: rest => plain j :: plainItems rest

def plainFields : List (String × Json) → List (String × Json)
  | [] => []
  | (k, v) :: rest => (k, plain v) :: plainFields rest

end

mutual

/-- Containers nest at most so deep, and all numbers are integers of sixty-four bits. -/
def nests (depth : Nat) : Json → Bool
  | num (.int i) => fitsWord i
  | num (.real _) => false
  | arr items =>
    match depth with
    | 0 => false
    | depth + 1 => nestsItems depth items
  | obj fields =>
    match depth with
    | 0 => false
    | depth + 1 => nestsFields depth fields
  | _ => true

def nestsItems (depth : Nat) : List Json → Bool
  | [] => true
  | j :: rest => nests depth j && nestsItems depth rest

def nestsFields (depth : Nat) : List (String × Json) → Bool
  | [] => true
  | (_, v) :: rest => nests depth v && nestsFields depth rest

end

/-! ### Lists of parts -/

/-- The part at the head of a text is read, or fails to be, whatever follows it. -/
structure Reads {α : Type} (part : Reader α) (text : List Char) (o : Option α) : Prop where
  lead : ∃ c cs, text = c :: cs ∧ isSpace c = false ∧ c ≠ ']' ∧ c ≠ '}'
  read : ∀ rest, Stops rest → part (text ++ rest) = o.map (·, rest)

/-- Parts with space before each and commas between them. -/
def joinParts (space : List Char) : List (List Char) → List Char
  | [] => []
  | [t] => space ++ t
  | t :: rest => space ++ t ++ ',' :: joinParts space rest

theorem joinParts_cons (space t : List Char) {rest : List (List Char)} (h : rest ≠ []) :
    joinParts space (t :: rest) = space ++ t ++ ',' :: joinParts space rest := by
  cases rest with
  | nil => exact absurd rfl h
  | cons _ _ => rfl

theorem skipSpace_append {space : List Char} (h : ∀ c ∈ space, isSpace c = true) (cs : List Char) :
    skipSpace (space ++ cs) = skipSpace cs :=
  List.dropWhile_append_of_pos h

theorem skipSpace_cons {c : Char} (h : isSpace c = false) (cs : List Char) :
    skipSpace (c :: cs) = c :: cs := by
  simp [skipSpace, h]

theorem stops_space {space rest : List Char} (h : ∀ c ∈ space, isSpace c = true) (hrest : Stops rest) :
    Stops (space ++ rest) := by
  cases space with
  | nil => exact hrest
  | cons c cs =>
      have hc : isSpace c = true := h c (by simp)
      simp only [isSpace, Bool.or_eq_true, decide_eq_true_eq] at hc
      apply stops_cons
      rcases hc with ((rfl | rfl) | rfl) | rfl <;> decide

variable {α : Type} {part : Reader α} {space gap : List Char} {close : Char}

theorem Reads.skipSpace {text : List Char} {o : Option α} (h : Reads part text o)
    (hspace : ∀ c ∈ space, isSpace c = true) (rest : List Char) :
    skipSpace (space ++ text ++ rest) = text ++ rest := by
  obtain ⟨c, cs, rfl, hc, -⟩ := h.lead
  rw [List.append_assoc, skipSpace_append hspace, List.cons_append, skipSpace_cons hc]

theorem separated_spec (hclose : close = ']' ∨ close = '}') (hspace : ∀ c ∈ space, isSpace c = true)
    (hgap : ∀ c ∈ gap, isSpace c = true) {texts : List (List Char)} {os : List (Option α)}
    (h : List.Forall₂ (Reads part) texts os) (hne : texts ≠ []) (fuel : Nat)
    (hfuel : texts.length ≤ fuel) (rest : List Char) :
    separated close part fuel (joinParts space texts ++ (gap ++ close :: rest)) =
      (os.mapM id).map (·, rest) := by
  have hend : Stops (gap ++ close :: rest) := by
    apply stops_space hgap
    apply stops_cons
    rcases hclose with rfl | rfl <;> decide
  have hskip : skipSpace (gap ++ close :: rest) = close :: rest := by
    rw [skipSpace_append hgap, skipSpace_cons]
    rcases hclose with rfl | rfl <;> rfl
  have hcomma : close ≠ ',' := by
    rcases hclose with rfl | rfl <;> decide
  induction h generalizing fuel with
  | nil => exact absurd rfl hne
  | @cons t o texts os ht hrest ih =>
      obtain ⟨fuel, rfl⟩ := Nat.exists_eq_succ_of_ne_zero (Nat.ne_zero_of_lt hfuel)
      cases hrest with
      | nil =>
          rw [separated, joinParts, ht.skipSpace hspace, ht.read _ hend]
          cases o with
          | none => rfl
          | some a => simp [hskip, hcomma]
      | @cons t' o' texts os ht' hrest =>
          have hmore := ih (by simp) fuel (by simpa using hfuel)
          have hstop : Stops (',' :: (joinParts space (t' :: texts) ++ (gap ++ close :: rest))) :=
            stops_cons (by decide)
          rw [joinParts_cons _ _ (by simp), separated, List.append_assoc, List.cons_append,
            ht.skipSpace hspace, ht.read _ hstop]
          cases o with
          | none => rfl
          | some a =>
              have hcomma' : skipSpace (',' :: (joinParts space (t' :: texts) ++ (gap ++ close :: rest))) =
                  ',' :: (joinParts space (t' :: texts) ++ (gap ++ close :: rest)) :=
                skipSpace_cons rfl _
              have hmap : (some a :: o' :: os).mapM id = ((o' :: os).mapM id).map (a :: ·) := by
                rw [List.mapM_cons]
                cases (o' :: os).mapM id <;> rfl
              simp only [Option.map_some, Option.bind_eq_bind, Option.bind_some, hcomma', if_true, hmore,
                hmap]
              cases (o' :: os).mapM id <;> rfl

/-- A list of texts between brackets, each with space before it. -/
def enclose (start close : Char) (inner outer : List Char) : List (List Char) → List Char
  | [] => [start, close]
  | t :: texts => start :: (joinParts inner (t :: texts) ++ (outer ++ [close]))

theorem length_le_joinParts {texts : List (List Char)} (h : ∀ t ∈ texts, t ≠ []) :
    texts.length ≤ (joinParts space texts).length := by
  induction texts with
  | nil => simp
  | cons t texts ih =>
      have ht : 0 < t.length := List.length_pos_of_ne_nil (h t (by simp))
      have := ih fun t' ht' => h t' (List.mem_cons_of_mem t ht')
      cases texts with
      | nil =>
          simp only [joinParts, List.length_append, List.length_cons, List.length_nil]
          omega
      | cons t' texts =>
          rw [joinParts_cons _ _ (by simp)]
          simp only [List.length_append, List.length_cons] at this ⊢
          omega

theorem bracketed_spec (start : Char) (hclose : close = ']' ∨ close = '}')
    (hspace : ∀ c ∈ space, isSpace c = true) (hgap : ∀ c ∈ gap, isSpace c = true)
    {texts : List (List Char)} {os : List (Option α)} (h : List.Forall₂ (Reads part) texts os)
    (rest : List Char) : ∃ cs, enclose start close space gap texts ++ rest = start :: cs ∧
      bracketed close part cs = (os.mapM id).map (·, rest) := by
  cases h with
  | nil =>
      refine ⟨close :: rest, rfl, ?_⟩
      have : skipSpace (close :: rest) = close :: rest := by
        apply skipSpace_cons
        rcases hclose with rfl | rfl <;> rfl
      simp [bracketed, this]
  | @cons t o texts os ht hrest =>
      refine ⟨joinParts space (t :: texts) ++ (gap ++ close :: rest), by simp [enclose], ?_⟩
      have hhead : ∃ c cs, c ≠ close ∧
          skipSpace (joinParts space (t :: texts) ++ (gap ++ close :: rest)) = c :: cs := by
        obtain ⟨c, cs, rfl, hc, hne, hne'⟩ := ht.lead
        have hclose' : c ≠ close := by
          rcases hclose with rfl | rfl
          · exact hne
          · exact hne'
        cases texts with
        | nil =>
            exact ⟨c, cs ++ (gap ++ close :: rest), hclose', ht.skipSpace hspace _⟩
        | cons t' texts =>
            refine ⟨c, cs ++ ',' :: (joinParts space (t' :: texts) ++ (gap ++ close :: rest)), hclose', ?_⟩
            rw [joinParts_cons _ _ (by simp), List.append_assoc]
            exact ht.skipSpace hspace _
      have hnonempty : ∀ t' ∈ t :: texts, t' ≠ [] := by
        intro t' ht'
        obtain ⟨o', -, h'⟩ := exists_of_forall₂ (.cons ht hrest) ht'
        obtain ⟨c, cs, rfl, -⟩ := h'.lead
        simp
      obtain ⟨c, cs, hne, hskip⟩ := hhead
      rw [bracketed, hskip]
      simp only [if_neg hne]
      apply separated_spec hclose hspace hgap (.cons ht hrest) (by simp)
      have : (t :: texts).length ≤ (joinParts space (t :: texts)).length :=
        length_le_joinParts hnonempty
      rw [List.length_append]
      omega

/-! ### Layouts -/

mutual

/-- The text of a value with `space level` before each part and `gap` after each colon. -/
def layout (space : Nat → List Char) (gap : List Char) (level : Nat) : Json → List Char
  | arr items =>
    enclose '[' ']' (space (level + 1)) (space level) (layoutItems space gap (level + 1) items)
  | obj fields =>
    enclose '{' '}' (space (level + 1)) (space level) (layoutFields space gap (level + 1) fields)
  | j => compactChars j

def layoutItems (space : Nat → List Char) (gap : List Char) (level : Nat) :
    List Json → List (List Char)
  | [] => []
  | j :: rest => layout space gap level j :: layoutItems space gap level rest

def layoutFields (space : Nat → List Char) (gap : List Char) (level : Nat) :
    List (String × Json) → List (List Char)
  | [] => []
  | (k, v) :: rest =>
    (quote k ++ ':' :: (gap ++ layout space gap level v)) :: layoutFields space gap level rest

end

mutual

theorem compactChars_eq_layout (level : Nat) (j : Json) :
    compactChars j = layout (fun _ => []) [] level j := by
  match j with
  | null | bool _ | num _ | str _ => rfl
  | arr [] | obj [] => rfl
  | arr (j :: rest) =>
    rw [compactChars, compactItems_eq_layout (level + 1), layout, layoutItems, enclose]
    rfl
  | obj ((k, v) :: rest) =>
    rw [compactChars, compactFields_eq_layout (level + 1), layout, layoutFields, enclose]
    rfl

theorem compactItems_eq_layout (level : Nat) (l : List Json) :
    compactItems l = joinParts [] (layoutItems (fun _ => []) [] level l) := by
  match l with
  | [] => rfl
  | [j] => rw [compactItems, compactChars_eq_layout level j]; rfl
  | j :: j' :: rest =>
    rw [compactItems, compactChars_eq_layout level j, compactItems_eq_layout level (j' :: rest)]
    · rfl
    · simp

theorem compactFields_eq_layout (level : Nat) (l : List (String × Json)) :
    compactFields l = joinParts [] (layoutFields (fun _ => []) [] level l) := by
  match l with
  | [] => rfl
  | [(k, v)] => rw [compactFields, compactChars_eq_layout level v]; rfl
  | (k, v) :: e :: rest =>
    rw [compactFields, compactChars_eq_layout level v, compactFields_eq_layout level (e :: rest)]
    · simp [layoutFields, joinParts]
    · simp

end

mutual

theorem prettyChars_eq_layout (level : Nat) (j : Json) :
    prettyChars level j = layout newline [' '] level j := by
  match j with
  | null | bool true | bool false | num _ | str _ => rfl
  | arr [] | obj [] => rfl
  | arr (j :: rest) =>
    rw [prettyChars, prettyItems_eq_layout (level + 1), layout, layoutItems, enclose]
    · simp
    · simp
  | obj ((k, v) :: rest) =>
    rw [prettyChars, prettyFields_eq_layout (level + 1), layout, layoutFields, enclose]
    · simp
    · simp

theorem prettyItems_eq_layout (level : Nat) (l : List Json) :
    prettyItems level l = joinParts (newline level) (layoutItems newline [' '] level l) := by
  match l with
  | [] => rfl
  | [j] => rw [prettyItems, prettyChars_eq_layout level j]; rfl
  | j :: j' :: rest =>
    rw [prettyItems, prettyChars_eq_layout level j, prettyItems_eq_layout level (j' :: rest)]
    · rfl
    · simp

theorem prettyFields_eq_layout (level : Nat) (l : List (String × Json)) :
    prettyFields level l = joinParts (newline level) (layoutFields newline [' '] level l) := by
  match l with
  | [] => rfl
  | [(k, v)] => rw [prettyFields, prettyChars_eq_layout level v]; simp [layoutFields, joinParts]
  | (k, v) :: e :: rest =>
    rw [prettyFields, prettyChars_eq_layout level v, prettyFields_eq_layout level (e :: rest)]
    · simp [layoutFields, joinParts]
    · simp

end

/-! ### Reading back -/

/-- What is read, if anything, is the same as `a`, and it is surely read and `a` itself. -/
structure Recovers {α : Type} (same : α → α → Prop) (sure : Bool) (a : α) (o : Option α) : Prop where
  same : ∀ a', o = some a' → same a' a
  sure : sure = true → o = some a

theorem Recovers.mapM {α : Type} {same : α → α → Prop} {sure : α → Bool} {l : List α}
    {os : List (Option α)} (h : List.Forall₂ (fun a o => Recovers same (sure a) a o) l os) :
    Recovers (List.Forall₂ same) (l.all sure) l (os.mapM id) := by
  induction h with
  | nil => exact ⟨fun l' h => by cases h; exact .nil, fun _ => rfl⟩
  | @cons a o l os ha hl ih =>
      rw [List.mapM_cons]
      constructor
      · intro l' h
        obtain ⟨a', ho, h⟩ := Option.bind_eq_some_iff.1 h
        obtain ⟨l'', hos, h⟩ := Option.bind_eq_some_iff.1 h
        cases h
        exact .cons (ha.same a' ho) (ih.same l'' hos)
      · intro h
        rw [List.all_cons, Bool.and_eq_true] at h
        rw [ha.sure h.1, ih.sure h.2]
        rfl

theorem plainItems_eq (l : List Json) : plainItems l = l.map plain := by
  induction l with
  | nil => rfl
  | cons j rest ih => simp [plainItems, ih]

theorem plainFields_eq (l : List (String × Json)) :
    plainFields l = l.map fun e => (e.1, plain e.2) := by
  induction l with
  | nil => rfl
  | cons e rest ih =>
      obtain ⟨k, v⟩ := e
      simp [plainFields, ih]

theorem nestsItems_eq (depth : Nat) (l : List Json) : nestsItems depth l = l.all (nests depth) := by
  induction l with
  | nil => rfl
  | cons j rest ih => simp [nestsItems, ih]

theorem nestsFields_eq (depth : Nat) (l : List (String × Json)) :
    nestsFields depth l = l.all fun e => nests depth e.2 := by
  induction l with
  | nil => rfl
  | cons e rest ih =>
      obtain ⟨k, v⟩ := e
      simp [nestsFields, ih]

/-- What a value comes back as. -/
abbrev Returns (depth : Nat) : Json → Option Json → Prop := fun j =>
  Recovers (fun j' j => j'.plain = j.plain) (nests depth j) j

abbrev ReturnsField (depth : Nat) : String × Json → Option (String × Json) → Prop := fun e =>
  Recovers (fun e' e => e'.1 = e.1 ∧ e'.2.plain = e.2.plain) (nests depth e.2) e

theorem Recovers.arr {depth : Nat} {l : List Json} {os : List (Option Json)}
    (h : List.Forall₂ (Returns depth) l os) :
    Returns (depth + 1) (.arr l) ((os.mapM id).map .arr) := by
  have hl := Recovers.mapM h
  constructor
  · intro j' hj'
    obtain ⟨l', hl', rfl⟩ := Option.map_eq_some_iff.1 hj'
    have hsame := hl.same l' hl'
    rw [plain, plain, plainItems_eq, plainItems_eq, arr.injEq]
    rw [← List.forall₂_eq_eq_eq, List.forall₂_map_left_iff, List.forall₂_map_right_iff]
    exact hsame
  · intro hnests
    rw [nests, nestsItems_eq] at hnests
    rw [hl.sure hnests]
    rfl

theorem Recovers.obj {depth : Nat} {l : List (String × Json)} {os : List (Option (String × Json))}
    (h : List.Forall₂ (ReturnsField depth) l os) :
    Returns (depth + 1) (.obj l) ((os.mapM id).map .obj) := by
  have hl : Recovers _ (l.all fun e => nests depth e.2) l (os.mapM id) := Recovers.mapM h
  constructor
  · intro j' hj'
    obtain ⟨l', hl', rfl⟩ := Option.map_eq_some_iff.1 hj'
    have hsame := hl.same l' hl'
    rw [plain, plain, plainFields_eq, plainFields_eq, obj.injEq]
    rw [← List.forall₂_eq_eq_eq, List.forall₂_map_left_iff, List.forall₂_map_right_iff]
    exact hsame.imp fun e' e he => by rw [he.1, he.2]
  · intro hnests
    rw [nests, nestsFields_eq] at hnests
    rw [hl.sure hnests]
    rfl

theorem Recovers.none {α : Type} {same : α → α → Prop} {a : α} : Recovers same false a none :=
  ⟨nofun, nofun⟩

theorem Returns.self (depth : Nat) (j : Json) : Returns depth j (some j) :=
  ⟨fun j' h => by cases h; rfl, fun _ => rfl⟩

/-! ### Values -/

theorem value_scalar {c : Char} (hc : c ≠ '[' ∧ c ≠ '{') (depth : Nat) (cs : List Char) :
    value depth (c :: cs) = scalar (c :: cs) := by
  cases depth with
  | zero => rfl
  | succ depth =>
      unfold value
      split
      · rename_i h
        cases h
        exact absurd rfl hc.1
      · rename_i h
        cases h
        exact absurd rfl hc.2
      · rfl

theorem value_zero_bracket {c : Char} (hc : c = '[' ∨ c = '{') (cs : List Char) :
    value 0 (c :: cs) = none := by
  rcases hc with rfl | rfl
  · rfl
  · rfl

theorem lead_number {c : Char} (h : isNumberChar c = true) :
    isSpace c = false ∧ c ≠ ']' ∧ c ≠ '}' ∧ c ≠ '[' ∧ c ≠ '{' := by
  refine ⟨?_, ?_, ?_, ?_, ?_⟩
  · rw [← Bool.not_eq_true, isSpace]
    simp only [Bool.or_eq_true, decide_eq_true_eq]
    rintro (((rfl | rfl) | rfl) | rfl) <;> simp [isNumberChar] at h
  all_goals
    rintro rfl
    simp [isNumberChar] at h

theorem reads_scalar {c : Char} {text : List Char} {cs : List Char} {o : Option Json}
    (htext : text = c :: cs) (hc : isSpace c = false ∧ c ≠ ']' ∧ c ≠ '}' ∧ c ≠ '[' ∧ c ≠ '{')
    (hread : ∀ rest, Stops rest → scalar (text ++ rest) = o.map (·, rest)) (depth : Nat) :
    Reads (value depth) text o where
  lead := ⟨c, cs, htext, hc.1, hc.2.1, hc.2.2.1⟩
  read rest hrest := by
    rw [← hread rest hrest, htext, List.cons_append]
    exact value_scalar hc.2.2.2 depth _

theorem reads_bracket {c close : Char} {texts : List (List Char)} {os : List (Option α)}
    {inner outer : List Char} {make : List α → Json} {depth : Nat}
    (hc : c = '[' ∧ close = ']' ∨ c = '{' ∧ close = '}')
    (hvalue : ∀ cs, value (depth + 1) (c :: cs) =
      (bracketed close part cs).map fun p => (make p.1, p.2))
    (hinner : ∀ c ∈ inner, isSpace c = true) (houter : ∀ c ∈ outer, isSpace c = true)
    (h : List.Forall₂ (Reads part) texts os) :
    Reads (value (depth + 1)) (enclose c close inner outer texts) ((os.mapM id).map make) where
  lead := by
    have hhead : ∃ cs, enclose c close inner outer texts = c :: cs := by
      cases texts <;> exact ⟨_, rfl⟩
    obtain ⟨cs, hcs⟩ := hhead
    refine ⟨c, cs, hcs, ?_⟩
    rcases hc with ⟨rfl, -⟩ | ⟨rfl, -⟩ <;> decide
  read rest _ := by
    have hclose : close = ']' ∨ close = '}' := by
      rcases hc with ⟨-, h⟩ | ⟨-, h⟩
      · exact .inl h
      · exact .inr h
    obtain ⟨cs, hcs, hread⟩ := bracketed_spec c hclose hinner houter h rest
    rw [hcs, hvalue, hread]
    cases os.mapM id <;> rfl

theorem reads_none {c : Char} {text cs : List Char} (hc : c = '[' ∨ c = '{')
    (htext : text = c :: cs) : Reads (value 0) text none where
  lead := by
    refine ⟨c, cs, htext, ?_⟩
    rcases hc with rfl | rfl <;> decide
  read rest _ := by
    rw [htext, List.cons_append, value_zero_bracket hc]
    rfl

theorem exists_enclose (start close : Char) (inner outer : List Char) (texts : List (List Char)) :
    ∃ cs, enclose start close inner outer texts = start :: cs := by
  cases texts <;> exact ⟨_, rfl⟩

theorem reads_field {k : String} {text : List Char} {o : Option Json} {depth : Nat}
    (hgap : ∀ c ∈ gap, isSpace c = true) (h : Reads (value depth) text o) :
    Reads (field (value depth)) (quote k ++ ':' :: (gap ++ text)) (o.map (k, ·)) where
  lead := ⟨'"', _, rfl, by decide⟩
  read rest hrest := by
    have hcolon : skipSpace (':' :: (gap ++ text ++ rest)) = ':' :: (gap ++ text ++ rest) :=
      skipSpace_cons rfl _
    have hvalue := h.skipSpace hgap rest
    rw [List.append_assoc, List.cons_append, field, string_quote]
    simp only [Option.bind_eq_bind, Option.bind_some, hcolon]
    rw [hvalue, h.read rest hrest]
    cases o <;> rfl

/-- A layout that puts nothing but space between the parts. -/
structure IsBlank (space : Nat → List Char) (gap : List Char) : Prop where
  space : ∀ level, ∀ c ∈ space level, isSpace c = true
  gap : ∀ c ∈ gap, isSpace c = true

variable {space : Nat → List Char}

mutual

/-- The text of a value is read, whatever follows it and however it is laid out. -/
theorem exists_reads (h : IsBlank space gap) (depth level : Nat) (j : Json) :
    ∃ o, Reads (value depth) (layout space gap level j) o ∧ Returns depth j o := by
  match j with
  | null => exact ⟨some null, reads_scalar rfl (by decide) (fun _ _ => rfl) depth, Returns.self _ _⟩
  | bool true =>
    exact ⟨some (bool true), reads_scalar rfl (by decide) (fun _ _ => rfl) depth, Returns.self _ _⟩
  | bool false =>
    exact ⟨some (bool false), reads_scalar rfl (by decide) (fun _ _ => rfl) depth, Returns.self _ _⟩
  | str s =>
    refine ⟨some (str s), reads_scalar rfl (by decide) (fun rest _ => ?_) depth, Returns.self _ _⟩
    show (string (quote s ++ rest)).map _ = _
    rw [string_quote]
    rfl
  | num n =>
    obtain ⟨o, ho⟩ := exists_rereads n
    obtain ⟨hne, hall⟩ := n.text_spec
    obtain ⟨c, cs, hcs⟩ := List.exists_cons_of_ne_nil hne
    refine ⟨o.map .num, reads_scalar hcs (lead_number (hall c (by simp [hcs]))) (fun rest hrest => ?_)
      depth, ?_, ?_⟩
    · show scalar (n.text ++ rest) = _
      rw [ho.scalar rest hrest, Option.map_map]
      rfl
    · intro j' hj'
      obtain ⟨m, hm, rfl⟩ := Option.map_eq_some_iff.1 hj'
      rw [plain, plain, ho.plain m hm]
    · intro hnests
      cases n with
      | real x => cases hnests
      | int i =>
          rw [ho.word i rfl hnests]
          rfl
  | arr items =>
    cases depth with
    | zero =>
        obtain ⟨cs, hcs⟩ := exists_enclose '[' ']' (space (level + 1)) (space level)
          (layoutItems space gap (level + 1) items)
        exact ⟨none, reads_none (.inl rfl) hcs, .none⟩
    | succ depth =>
        obtain ⟨os, hreads, hreturns⟩ := exists_readsItems h depth (level + 1) items
        refine ⟨_, reads_bracket (.inl ⟨rfl, rfl⟩) (fun cs => ?_) (h.space _) (h.space _) hreads,
          Recovers.arr hreturns⟩
        rfl
  | obj fields =>
    cases depth with
    | zero =>
        obtain ⟨cs, hcs⟩ := exists_enclose '{' '}' (space (level + 1)) (space level)
          (layoutFields space gap (level + 1) fields)
        exact ⟨none, reads_none (.inr rfl) hcs, .none⟩
    | succ depth =>
        obtain ⟨os, hreads, hreturns⟩ := exists_readsFields h depth (level + 1) fields
        refine ⟨_, reads_bracket (.inr ⟨rfl, rfl⟩) (fun cs => ?_) (h.space _) (h.space _) hreads,
          Recovers.obj hreturns⟩
        rfl

theorem exists_readsItems (h : IsBlank space gap) (depth level : Nat) (l : List Json) :
    ∃ os, List.Forall₂ (Reads (value depth)) (layoutItems space gap level l) os ∧
      List.Forall₂ (Returns depth) l os := by
  match l with
  | [] => exact ⟨[], .nil, .nil⟩
  | j :: rest =>
    obtain ⟨o, hread, hreturns⟩ := exists_reads h depth level j
    obtain ⟨os, hreads, hall⟩ := exists_readsItems h depth level rest
    exact ⟨o :: os, .cons hread hreads, .cons hreturns hall⟩

theorem exists_readsFields (h : IsBlank space gap) (depth level : Nat) (l : List (String × Json)) :
    ∃ os, List.Forall₂ (Reads (field (value depth))) (layoutFields space gap level l) os ∧
      List.Forall₂ (ReturnsField depth) l os := by
  match l with
  | [] => exact ⟨[], .nil, .nil⟩
  | (k, v) :: rest =>
    obtain ⟨o, hread, hreturns⟩ := exists_reads h depth level v
    obtain ⟨os, hreads, hall⟩ := exists_readsFields h depth level rest
    refine ⟨o.map (k, ·) :: os, .cons (reads_field h.gap hread) hreads, .cons ⟨?_, ?_⟩ hall⟩
    · intro e he
      obtain ⟨v', hv', rfl⟩ := Option.map_eq_some_iff.1 he
      exact ⟨rfl, hreturns.same v' hv'⟩
    · intro hnests
      rw [hreturns.sure hnests]
      rfl

end

/-- A laid out value read on its own. -/
theorem parse?_layout (h : IsBlank space gap) (j : Json) : ∃ o, Returns maxDepth j o ∧
    ((value maxDepth (skipSpace (layout space gap 0 j))).bind fun p =>
      if (skipSpace p.2).isEmpty then some p.1 else none) = o := by
  obtain ⟨o, hread, hreturns⟩ := exists_reads h maxDepth 0 j
  refine ⟨o, hreturns, ?_⟩
  have hskip := hread.skipSpace (List.forall_mem_nil _) []
  have hvalue := hread.read [] stops_nil
  rw [List.nil_append, List.append_nil] at hskip
  rw [List.append_nil] at hvalue
  rw [hskip, hvalue]
  cases o <;> rfl

theorem isBlank_compact : IsBlank (fun _ => []) [] where
  space := by simp
  gap := by simp

theorem isBlank_pretty : IsBlank newline [' '] where
  space := by
    intro level c hc
    rcases List.mem_cons.1 hc with rfl | hc
    · rfl
    · rw [List.eq_of_mem_replicate hc]
      rfl
  gap := by simp [isSpace]

/-- What is read of a compact text is what was written, but for numbers. -/
theorem parse?_compact (j : Json) : Returns maxDepth j (parse? j.compact) := by
  obtain ⟨o, hreturns, ho⟩ := parse?_layout isBlank_compact j
  rw [← compactChars_eq_layout] at ho
  rw [parse?, compact, String.toList_ofList]
  rw [← ho] at hreturns
  exact hreturns

theorem parse?_pretty (j : Json) : Returns maxDepth j (parse? j.pretty) := by
  obtain ⟨o, hreturns, ho⟩ := parse?_layout isBlank_pretty j
  rw [← prettyChars_eq_layout] at ho
  rw [parse?, pretty, String.toList_ofList]
  rw [← ho] at hreturns
  exact hreturns

/-- One indented text, one value. -/
theorem eq_of_pretty_eq {a b : Json} (ha : nests maxDepth a = true) (hb : nests maxDepth b = true)
    (h : a.pretty = b.pretty) : a = b := by
  have hread := (parse?_pretty a).sure ha
  rw [h, (parse?_pretty b).sure hb, Option.some.injEq] at hread
  exact hread.symm

end StaticGql.Json
