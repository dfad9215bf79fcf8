import ScriptEngine.Text

/-!
# Tables of names

A table binds names to values, in the byte order of the names. Binding a name again replaces what it
was bound to.
-/

namespace ScriptEngine

structure NameTable (α : Type) where
  entries : List (Text × α)

/-- Why a name gives nothing that has to be bound. -/
inductive AccessFault where
  | outOfRange
  deriving DecidableEq

namespace NameTable

variable {α β : Type}

def empty : NameTable α := ⟨[]⟩

instance : Inhabited (NameTable α) := ⟨empty⟩

/-- Puts an entry in its place among ordered ones. -/
def insertEntry (name : Text) (value : α) : List (Text × α) → List (Text × α)
  | [] => [(name, value)]
  | (k, v) :: rest =>
    if k = name then (name, value) :: rest
    else if name < k then (name, value) :: (k, v) :: rest
    else (k, v) :: insertEntry name value rest

def insert (t : NameTable α) (name : Text) (value : α) : NameTable α :=
  ⟨insertEntry name value t.entries⟩

def find? (t : NameTable α) (name : Text) : Option α := t.entries.lookup name

/-- What a name is bound to that has to be bound. -/
def get (t : NameTable α) (name : Text) : Except AccessFault α :=
  (t.find? name).elim (.error .outOfRange) .ok

def contains (t : NameTable α) (name : Text) : Bool := (t.find? name).isSome

def names (t : NameTable α) : List Text := t.entries.map Prod.fst

def size (t : NameTable α) : Nat := t.entries.length

/-- The same names, with what `f` makes of each entry. -/
def map (f : Text → α → β) (t : NameTable α) : NameTable β :=
  ⟨t.entries.map fun e => (e.1, f e.1 e.2)⟩

/-! ## What a table binds after an insertion -/

theorem lookup_insertEntry_self (name : Text) (value : α) (es : List (Text × α)) :
    (insertEntry name value es).lookup name = some value := by
  induction es with
  | nil => simp [insertEntry]
  | cons e rest ih =>
    obtain ⟨k, v⟩ := e
    rw [insertEntry]
    by_cases hk : k = name
    · simp [hk]
    · rw [if_neg hk]
      split
      · simp
      · rw [List.lookup_cons, beq_false_of_ne (Ne.symm hk), ih]

theorem lookup_insertEntry_of_ne {name other : Text} (h : other ≠ name) (value : α)
    (es : List (Text × α)) : (insertEntry name value es).lookup other = es.lookup other := by
  have hn : (other == name) = false := beq_false_of_ne h
  induction es with
  | nil => simp [insertEntry, List.lookup_cons, hn]
  | cons e rest ih =>
    obtain ⟨k, v⟩ := e
    rw [insertEntry]
    split
    · rename_i hk
      subst hk
      simp [List.lookup_cons, hn]
    · split
      · rw [List.lookup_cons, hn]
      · rw [List.lookup_cons, List.lookup_cons, ih]

@[simp] theorem find?_empty (name : Text) : (empty : NameTable α).find? name = none := rfl

@[simp] theorem find?_insert_self (t : NameTable α) (name : Text) (value : α) :
    (t.insert name value).find? name = some value :=
  lookup_insertEntry_self name value t.entries

theorem find?_insert_of_ne {name other : Text} (h : other ≠ name) (t : NameTable α) (value : α) :
    (t.insert name value).find? other = t.find? other :=
  lookup_insertEntry_of_ne h value t.entries

theorem find?_insert_eq_some_iff {name other : Text} {t : NameTable α} {a b : α} :
    (t.insert other b).find? name = some a ↔
      (other = name ∧ b = a) ∨ (other ≠ name ∧ t.find? name = some a) := by
  by_cases h : other = name
  · subst h
    simp
  · rw [find?_insert_of_ne (Ne.symm h)]
    simp [h]

theorem find?_map (f : Text → α → β) (t : NameTable α) (name : Text) :
    (t.map f).find? name = (t.find? name).map (f name) := by
  obtain ⟨es⟩ := t
  show (es.map _).lookup name = (es.lookup name).map (f name)
  induction es with
  | nil => rfl
  | cons e rest ih =>
    rw [List.map_cons, List.lookup_cons, List.lookup_cons, ih]
    cases he : name == e.1 with
    | true => rw [eq_of_beq he]; rfl
    | false => rfl

theorem map_insert (f : Text → α → β) (t : NameTable α) (name : Text) (a : α) :
    (t.insert name a).map f = (t.map f).insert name (f name a) := by
  obtain ⟨es⟩ := t
  refine congrArg NameTable.mk ?_
  show (insertEntry name a es).map _ = insertEntry name (f name a) (es.map _)
  induction es with
  | nil => rfl
  | cons e rest ih =>
    obtain ⟨k, v⟩ := e
    rw [insertEntry, List.map_cons, insertEntry]
    split
    · rfl
    · split
      · rfl
      · rw [List.map_cons, ih]

theorem get_eq_ok {t : NameTable α} {name : Text} {a : α} :
    t.get name = .ok a ↔ t.find? name = some a := by
  rw [get]
  cases t.find? name <;> simp

theorem get_eq_error {t : NameTable α} {name : Text} {e : AccessFault} :
    t.get name = .error e ↔ t.find? name = none := by
  rw [get]
  cases t.find? name <;> simp

/-! ## The names of a table -/

@[simp] theorem length_names (t : NameTable α) : t.names.length = t.size := by
  simp [names, size]

theorem mem_names {t : NameTable α} {name : Text} :
    name ∈ t.names ↔ ∃ a, t.find? name = some a := by
  rw [← Option.isSome_iff_exists, ← Option.ne_none_iff_isSome]
  simp [find?, names, List.lookup_eq_none_iff]

/-- The names are listed in their order, none of them twice. -/
def IsOrdered (t : NameTable α) : Prop := t.names.Pairwise (· < ·)

theorem isOrdered_empty : (empty : NameTable α).IsOrdered := .nil

theorem mem_insertEntry {name : Text} {value : α} {es : List (Text × α)} {e : Text × α}
    (h : e ∈ insertEntry name value es) : e = (name, value) ∨ e ∈ es := by
  induction es with
  | nil => exact .inl (List.mem_singleton.mp h)
  | cons d rest ih =>
    obtain ⟨k, v⟩ := d
    rw [insertEntry] at h
    split at h
    · exact (List.mem_cons.mp h).imp_right (List.mem_cons_of_mem _)
    · split at h
      · exact List.mem_cons.mp h
      · rcases List.mem_cons.mp h with rfl | h
        · exact .inr List.mem_cons_self
        · exact (ih h).imp_right (List.mem_cons_of_mem _)

theorem IsOrdered.insert {t : NameTable α} (h : t.IsOrdered) (name : Text) (value : α) :
    (t.insert name value).IsOrdered := by
  obtain ⟨es⟩ := t
  rw [IsOrdered, names, List.pairwise_map] at h ⊢
  show (insertEntry name value es).Pairwise _
  induction es with
  | nil => exact List.pairwise_singleton _ _
  | cons e rest ih =>
    obtain ⟨k, v⟩ := e
    obtain ⟨hk, hrest⟩ := List.pairwise_cons.mp h
    rw [insertEntry]
    split
    · next heq =>
      subst heq
      exact List.pairwise_cons.mpr ⟨hk, hrest⟩
    · next hne =>
      split
      · next hlt =>
        refine List.pairwise_cons.mpr ⟨List.forall_mem_cons.mpr ⟨hlt, fun e he => ?_⟩, h⟩
        exact List.lt_trans hlt (hk e he)
      · next hnlt =>
        -- The entry goes further back, behind a smaller name.
        have hlt : k < name := Std.lt_of_le_of_ne (List.not_lt.mp hnlt) hne
        refine List.pairwise_cons.mpr ⟨fun e he => ?_, ih hrest⟩
        rcases mem_insertEntry he with rfl | he
        · exact hlt
        · exact hk e he

end NameTable

end ScriptEngine
