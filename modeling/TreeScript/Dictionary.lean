/-!
# Dictionaries

A dictionary binds names to values. As a map it has no order: no look-up can tell in which order
bindings were made, and a text lists them sorted by their names. That sorted order is made the
invariant of the type here. So each name occurs once, two dictionaries with the same bindings are
equal, and whoever writes them finds them sorted already.
-/

namespace TreeScript

/-- Bindings of names, in rising order of the names. The order stands for the sorting that an
unordered map would need when its names are listed. -/
structure Dictionary (α : Type) where
  entries : List (String × α)
  ordered : entries.Pairwise fun first second => first.1 < second.1

namespace Dictionary

variable {α : Type}

/-- No bindings. -/
def empty : Dictionary α := ⟨[], .nil⟩

/-- Put a binding where its name belongs, in place of one of the same name. -/
def insertEntry (name : String) (value : α) : List (String × α) → List (String × α)
  | [] => [(name, value)]
  | entry :: rest =>
    if name < entry.1 then (name, value) :: entry :: rest
    else if name = entry.1 then (name, value) :: rest
    else entry :: insertEntry name value rest

/-- The entries after an insertion are the new one and old ones. -/
theorem mem_insertEntry {name : String} {value : α} {entries : List (String × α)}
    {entry : String × α} (h : entry ∈ insertEntry name value entries) :
    entry = (name, value) ∨ entry ∈ entries := by
  induction entries with
  | nil => exact .inl (List.mem_singleton.mp h)
  | cons head rest ih =>
    unfold insertEntry at h
    split at h
    · exact (List.mem_cons.mp h).imp_right id
    · split at h
      · exact (List.mem_cons.mp h).imp_right (List.mem_cons_of_mem _)
      · rcases List.mem_cons.mp h with rfl | hrest
        · exact .inr (.head _)
        · exact (ih hrest).imp_right (List.mem_cons_of_mem _)

/-- Inserting keeps the entries in order. -/
theorem ordered_insertEntry (name : String) (value : α) {entries : List (String × α)}
    (h : entries.Pairwise fun first second => first.1 < second.1) :
    (insertEntry name value entries).Pairwise fun first second => first.1 < second.1 := by
  induction entries with
  | nil => simp [insertEntry]
  | cons head rest ih =>
    obtain ⟨hhead, hrest⟩ := List.pairwise_cons.mp h
    unfold insertEntry
    split
    · rename_i hbefore
      refine List.pairwise_cons.mpr ⟨fun entry hentry => ?_, h⟩
      rcases List.mem_cons.mp hentry with rfl | hentry
      · exact hbefore
      · exact String.lt_trans hbefore (hhead entry hentry)
    · split
      · rename_i hsame
        exact List.pairwise_cons.mpr ⟨fun entry hentry => hsame ▸ hhead entry hentry, hrest⟩
      · rename_i hbefore hsame
        have hafter : head.1 < name := by
          rcases String.le_total name head.1 with hle | hle
          · exact absurd (String.le_antisymm hle (String.not_lt.mp hbefore)) hsame
          · exact String.not_le.mp fun hname => hsame (String.le_antisymm hname hle)
        refine List.pairwise_cons.mpr ⟨fun entry hentry => ?_, ih hrest⟩
        rcases mem_insertEntry hentry with rfl | hentry
        · exact hafter
        · exact hhead entry hentry

/-- Bind a name, in place of an earlier binding. -/
def insert (dictionary : Dictionary α) (name : String) (value : α) : Dictionary α :=
  ⟨insertEntry name value dictionary.entries, ordered_insertEntry name value dictionary.ordered⟩

/-- The value bound to a name. -/
def get? (dictionary : Dictionary α) (name : String) : Option α := dictionary.entries.lookup name

/-- Whether a name is bound. -/
def contains (dictionary : Dictionary α) (name : String) : Bool := (dictionary.get? name).isSome

/-- The bound names in rising order. -/
def keys (dictionary : Dictionary α) : List String := dictionary.entries.map (·.1)

/-- The number of bindings. -/
def size (dictionary : Dictionary α) : Nat := dictionary.entries.length

/-- Whether nothing is bound. -/
def isEmpty (dictionary : Dictionary α) : Bool := dictionary.entries.isEmpty

/-- A name just bound has its new value, and every other name its old one. -/
theorem lookup_insertEntry (name other : String) (value : α) (entries : List (String × α)) :
    (insertEntry name value entries).lookup other =
      if other = name then some value else entries.lookup other := by
  induction entries with
  | nil =>
    by_cases h : other = name
    · simp [insertEntry, h]
    · simp [insertEntry, List.lookup_cons, beq_eq_false_iff_ne.mpr h, h]
  | cons head rest ih =>
    obtain ⟨headName, headValue⟩ := head
    unfold insertEntry
    by_cases h : other = name
    · subst h
      split
      · simp
      · split
        · simp
        · rename_i hne
          simpa [List.lookup_cons, beq_eq_false_iff_ne.mpr hne] using ih
    · have hname := beq_eq_false_iff_ne.mpr h
      split
      · simp [List.lookup_cons, hname]
      · split
        · rename_i hsame
          subst hsame
          simp [List.lookup_cons, hname]
        · simp only [h, if_false] at ih ⊢
          simp only [List.lookup_cons, ih]

/-- Binding a name changes what that name is bound to and nothing else. -/
theorem get?_insert (dictionary : Dictionary α) (name other : String) (value : α) :
    (dictionary.insert name value).get? other =
      if other = name then some value else dictionary.get? other :=
  lookup_insertEntry name other value dictionary.entries

end Dictionary

end TreeScript
