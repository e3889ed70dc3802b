/-! Dictionaries with text keys, kept in the order of their keys, so two dictionaries with the same
bindings are equal. -/

namespace Patchbay

structure Dict (α : Type) where
  entries : List (String × α)
  sorted : entries.Pairwise (fun a b => a.1 < b.1)

namespace Dict

variable {α β : Type}

theorem ext {d e : Dict α} (h : d.entries = e.entries) : d = e := by
  cases d
  cases e
  cases h
  rfl

instance [DecidableEq α] : DecidableEq (Dict α) := fun d e =>
  if h : d.entries = e.entries then isTrue (ext h)
  else isFalse fun he => h (by rw [he])

def empty : Dict α := ⟨[], .nil⟩

instance : Inhabited (Dict α) := ⟨empty⟩

def lookupIn (key : String) : List (String × α) → Option α
  | [] => none
  | (k, a) :: rest => if key = k then some a else lookupIn key rest

def find? (d : Dict α) (key : String) : Option α := lookupIn key d.entries

def contains (d : Dict α) (key : String) : Bool := (d.find? key).isSome

def keys (d : Dict α) : List String := d.entries.map (·.1)

def values (d : Dict α) : List α := d.entries.map (·.2)

def isEmpty (d : Dict α) : Bool := d.entries.isEmpty

def insertEntry (key : String) (a : α) : List (String × α) → List (String × α)
  | [] => [(key, a)]
  | (k, b) :: rest =>
    if key < k then (key, a) :: (k, b) :: rest
    else if key = k then (key, a) :: rest
    else (k, b) :: insertEntry key a rest

theorem mem_insertEntry {key : String} {a : α} {l : List (String × α)} {e : String × α}
    (h : e ∈ insertEntry key a l) : e = (key, a) ∨ e ∈ l := by
  induction l with
  | nil => exact Or.inl (List.mem_singleton.1 h)
  | cons x rest ih =>
    obtain ⟨k, b⟩ := x
    unfold insertEntry at h
    split at h
    · exact List.mem_cons.1 h
    · split at h
      · exact (List.mem_cons.1 h).imp_right (List.mem_cons_of_mem _)
      · rcases List.mem_cons.1 h with h | h
        · exact Or.inr (h ▸ List.mem_cons_self)
        · exact (ih h).imp_right (List.mem_cons_of_mem _)

theorem lt_of_not_lt_of_ne {a b : String} (h : ¬a < b) (hne : a ≠ b) : b < a := by
  rcases Decidable.em (b < a) with hba | hba
  · exact hba
  · exact absurd (String.le_antisymm (String.not_lt.1 hba) (String.not_lt.1 h)) hne

theorem sorted_insertEntry {key : String} {a : α} {l : List (String × α)}
    (h : l.Pairwise (fun a b => a.1 < b.1)) :
    (insertEntry key a l).Pairwise (fun a b => a.1 < b.1) := by
  induction l with
  | nil => exact List.pairwise_singleton _ _
  | cons x rest ih =>
    obtain ⟨k, b⟩ := x
    have hx := List.pairwise_cons.1 h
    unfold insertEntry
    split
    · next hlt =>
      refine List.pairwise_cons.2 ⟨fun e he => ?_, h⟩
      rcases List.mem_cons.1 he with rfl | he
      · exact hlt
      · exact String.lt_trans hlt (hx.1 e he)
    · next hlt =>
      split
      · next heq =>
        subst heq
        exact List.pairwise_cons.2 ⟨hx.1, hx.2⟩
      · next hne =>
        refine List.pairwise_cons.2 ⟨fun e he => ?_, ih hx.2⟩
        rcases mem_insertEntry he with rfl | he
        · exact lt_of_not_lt_of_ne hlt hne
        · exact hx.1 e he

/-- Binds `key` to `a`, replacing an earlier binding. -/
def insert (d : Dict α) (key : String) (a : α) : Dict α :=
  ⟨insertEntry key a d.entries, sorted_insertEntry d.sorted⟩

def erase (d : Dict α) (key : String) : Dict α :=
  ⟨d.entries.filter (·.1 != key), d.sorted.filter _⟩

/-- Later bindings of a key win. -/
def ofList (l : List (String × α)) : Dict α :=
  l.foldl (fun d e => d.insert e.1 e.2) empty

def map (f : α → β) (d : Dict α) : Dict β :=
  ⟨d.entries.map fun e => (e.1, f e.2), List.pairwise_map.2 d.sorted⟩

/-- The list bound to `key`, empty without a binding. -/
def list (d : Dict (List α)) (key : String) : List α := (d.find? key).getD []

/-- Rebinds the list of `key`; an empty list has no binding. -/
def setList (d : Dict (List α)) (key : String) (l : List α) : Dict (List α) :=
  if l.isEmpty then d.erase key else d.insert key l

theorem lookupIn_insertEntry (key k : String) (a : α) (l : List (String × α)) :
    lookupIn k (insertEntry key a l) = if k = key then some a else lookupIn k l := by
  induction l with
  | nil => rfl
  | cons x rest ih =>
    obtain ⟨j, b⟩ := x
    unfold insertEntry
    split
    · rfl
    · split
      · next heq =>
        subst heq
        simp only [lookupIn]
        split <;> rfl
      · next hne =>
        simp only [lookupIn, ih]
        by_cases h : k = key
        · subst h
          simp [hne]
        · simp [h]

theorem find?_insert (d : Dict α) (key k : String) (a : α) :
    (d.insert key a).find? k = if k = key then some a else d.find? k :=
  lookupIn_insertEntry key k a d.entries

theorem lookupIn_filter_ne (key k : String) (l : List (String × α)) :
    lookupIn k (l.filter (·.1 != key)) = if k = key then none else lookupIn k l := by
  induction l with
  | nil => simp [lookupIn]
  | cons x rest ih =>
    obtain ⟨j, b⟩ := x
    by_cases hj : j = key
    · subst hj
      rw [List.filter_cons_of_neg (by simp), ih]
      simp only [lookupIn]
      split <;> rfl
    · rw [List.filter_cons_of_pos (by simpa using hj)]
      simp only [lookupIn, ih]
      by_cases h : k = key
      · subst h
        simp [Ne.symm hj]
      · simp [h]

theorem find?_erase (d : Dict α) (key k : String) :
    (d.erase key).find? k = if k = key then none else d.find? k :=
  lookupIn_filter_ne key k d.entries

theorem list_setList (d : Dict (List α)) (key k : String) (l : List α) :
    (d.setList key l).list k = if k = key then l else d.list k := by
  unfold setList list
  split
  · next h =>
    rw [find?_erase, List.isEmpty_iff.1 h]
    split <;> rfl
  · rw [find?_insert]
    split <;> rfl

end Dict

end Patchbay
