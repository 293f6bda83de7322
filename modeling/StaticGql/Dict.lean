/-!
Finite maps with text keys, kept in the order of their keys.
-/

namespace StaticGql

/-- Keys are compared character by character, by code point. -/
structure Dict (β : Type) where
  entries : List (String × β)
  sorted : entries.Pairwise (fun a b => a.1 < b.1)

namespace Dict

variable {β γ : Type}

def empty : Dict β := ⟨[], .nil⟩

instance : EmptyCollection (Dict β) := ⟨empty⟩

instance : Inhabited (Dict β) := ⟨empty⟩

def find (k : String) : List (String × β) → Option β
  | [] => none
  | (a, v) :: rest => if a = k then some v else find k rest

def get? (d : Dict β) (k : String) : Option β := find k d.entries

def contains (d : Dict β) (k : String) : Bool := (d.get? k).isSome

def put (k : String) (v : β) : List (String × β) → List (String × β)
  | [] => [(k, v)]
  | (a, w) :: rest =>
    if k < a then (k, v) :: (a, w) :: rest
    else if a < k then (a, w) :: put k v rest
    else (a, v) :: rest

theorem mem_put {k : String} {v : β} {l : List (String × β)} {p : String × β}
    (h : p ∈ put k v l) : p.1 = k ∨ ∃ w, (p.1, w) ∈ l := by
  induction l with
  | nil => simp_all [put]
  | cons q rest ih =>
    obtain ⟨a, w⟩ := q
    simp only [put] at h
    split at h
    · rcases List.mem_cons.1 h with rfl | h
      · exact .inl rfl
      · exact .inr ⟨p.2, h⟩
    · split at h
      · rcases List.mem_cons.1 h with rfl | h
        · exact .inr ⟨w, by simp⟩
        · rcases ih h with h | ⟨u, hu⟩
          · exact .inl h
          · exact .inr ⟨u, by simp [hu]⟩
      · rcases List.mem_cons.1 h with rfl | h
        · exact .inr ⟨w, by simp⟩
        · exact .inr ⟨p.2, by simp [h]⟩

theorem sorted_put (k : String) (v : β) {l : List (String × β)}
    (h : l.Pairwise (fun a b => a.1 < b.1)) :
    (put k v l).Pairwise (fun a b => a.1 < b.1) := by
  induction l with
  | nil => simp [put]
  | cons q rest ih =>
    obtain ⟨a, w⟩ := q
    have hr := List.pairwise_cons.1 h
    simp only [put]
    split
    · rename_i hk
      refine List.pairwise_cons.2 ⟨fun p hp => ?_, h⟩
      rcases List.mem_cons.1 hp with rfl | hp
      · exact hk
      · exact String.lt_trans hk (hr.1 p hp)
    · split
      · rename_i hk
        refine List.pairwise_cons.2 ⟨fun p hp => ?_, ih hr.2⟩
        rcases mem_put hp with hp | ⟨u, hu⟩
        · simpa [hp] using hk
        · exact hr.1 (p.1, u) hu
      · exact List.pairwise_cons.2 ⟨fun p hp => hr.1 p hp, hr.2⟩

def insert (d : Dict β) (k : String) (v : β) : Dict β := ⟨put k v d.entries, sorted_put k v d.sorted⟩

def erase (d : Dict β) (k : String) : Dict β :=
  ⟨d.entries.filter (·.1 ≠ k), d.sorted.filter _⟩

def filter (p : String → β → Bool) (d : Dict β) : Dict β :=
  ⟨d.entries.filter fun e => p e.1 e.2, d.sorted.filter _⟩

def ofList (l : List (String × β)) : Dict β := l.foldl (fun d e => d.insert e.1 e.2) empty

def toList (d : Dict β) : List (String × β) := d.entries

def keys (d : Dict β) : List String := d.entries.map (·.1)

def values (d : Dict β) : List β := d.entries.map (·.2)

def size (d : Dict β) : Nat := d.entries.length

def isEmpty (d : Dict β) : Bool := d.entries.isEmpty

theorem sorted_map (f : String → β → γ) {l : List (String × β)}
    (h : l.Pairwise (fun a b => a.1 < b.1)) :
    (l.map fun e => (e.1, f e.1 e.2)).Pairwise (fun a b => a.1 < b.1) :=
  List.pairwise_map.2 h

def map (f : String → β → γ) (d : Dict β) : Dict γ :=
  ⟨d.entries.map fun e => (e.1, f e.1 e.2), sorted_map f d.sorted⟩

/-- The value under a key changed, where there is one. -/
def modify (d : Dict β) (k : String) (f : β → β) : Dict β :=
  d.map fun a v => if a = k then f v else v

theorem ext {a b : Dict β} (h : a.entries = b.entries) : a = b := by
  cases a; cases b; cases h; rfl

instance [DecidableEq β] : DecidableEq (Dict β) := fun a b =>
  if h : a.entries = b.entries then isTrue (ext h) else isFalse fun e => h (e ▸ rfl)

/-- A set of texts as a list in increasing order. -/
def sortedTexts (l : List String) : List String :=
  (ofList (l.map fun s => (s, ()))).keys

end Dict
end StaticGql
