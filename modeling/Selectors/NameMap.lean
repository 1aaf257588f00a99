/-!
# Name maps — a finite map from names to texts

The attributes of an element and the declared namespace prefixes are finite maps from strings to
strings. Such a map does not say in which order its entries are gone through: any order is possible,
and one map keeps its own. A `NameMap` therefore carries its entries in a list, in whatever order
they stand, and what is proved of all name maps holds for every order. That each name stands there
once is part of the map.

* **`get?`** — the text of a name; **`get?_eq_some_iff`** says that the order does not matter to it,
  and **`get?_eq_of_perm`** compares two orders.
* **`insert`** — the map with one name set; **`get?_insert`** is what it does to `get?`.
-/

namespace Selectors

/-- A finite map from names to texts, with the order in which its entries are gone through. -/
structure NameMap where
  entries : List (String × String)
  distinct : (entries.map Prod.fst).Nodup := by simp
deriving DecidableEq

namespace NameMap

/-- The map without entries. -/
def empty : NameMap := ⟨[], .nil⟩

instance : Inhabited NameMap := ⟨empty⟩

/-- The text of a name. -/
def get? (m : NameMap) (name : String) : Option String :=
  m.entries.lookup name

/-- The empty map has no names. -/
@[simp] theorem get?_empty (name : String) : empty.get? name = none := rfl

/-- A name has a text if the two are an entry, wherever it stands. -/
theorem get?_eq_some_iff {m : NameMap} {name text : String} :
    m.get? name = some text ↔ (name, text) ∈ m.entries := by
  obtain ⟨entries, hdistinct⟩ := m
  show entries.lookup name = some text ↔ (name, text) ∈ entries
  induction entries with
  | nil => exact iff_of_false nofun nofun
  | cons entry rest ih =>
    obtain ⟨first, firstText⟩ := entry
    obtain ⟨hfirst, hrest⟩ := List.nodup_cons.1 hdistinct
    rw [List.lookup_cons, List.mem_cons]
    by_cases hname : name = first
    · subst hname
      rw [beq_self_eq_true]
      constructor
      · intro h
        exact Or.inl (by rw [Option.some.inj h])
      · rintro (h | h)
        · rw [(Prod.mk.inj h).2]
        · exact absurd (List.mem_map_of_mem h) hfirst
    · rw [beq_eq_false_iff_ne.2 hname]
      refine (ih hrest).trans ⟨Or.inr, ?_⟩
      rintro (h | h)
      · exact absurd (Prod.mk.inj h).1 hname
      · exact h

/-- A name has a text if some entry has the name. -/
theorem isSome_get?_iff {m : NameMap} {name : String} :
    (m.get? name).isSome = true ↔ ∃ entry ∈ m.entries, entry.1 = name := by
  rw [Option.isSome_iff_exists]
  constructor
  · rintro ⟨text, h⟩
    exact ⟨(name, text), get?_eq_some_iff.1 h, rfl⟩
  · rintro ⟨⟨_, text⟩, hmem, rfl⟩
    exact ⟨text, get?_eq_some_iff.2 hmem⟩

/-- Two maps with the same entries in different orders have the same texts. -/
theorem get?_eq_of_perm {m m' : NameMap} (h : m.entries.Perm m'.entries) (name : String) :
    m.get? name = m'.get? name := by
  ext text
  rw [get?_eq_some_iff, get?_eq_some_iff]
  exact h.mem_iff

/-! ## Setting a name -/

/-- An entry put in front of the first one with a greater name, code point by code point. -/
def put (entry : String × String) : List (String × String) → List (String × String)
  | [] => [entry]
  | head :: rest => if entry.1 < head.1 then entry :: head :: rest else head :: put entry rest

/-- Wherever the entry is put, it is added to the others. -/
theorem put_perm (entry : String × String) (entries : List (String × String)) :
    (put entry entries).Perm (entry :: entries) := by
  induction entries with
  | nil => exact .refl _
  | cons head rest ih =>
    rw [put]
    split
    · exact .refl _
    · exact (ih.cons head).trans (.swap entry head rest)

/-- The entries of other names. -/
def others (m : NameMap) (name : String) : List (String × String) :=
  m.entries.filter fun entry => entry.1 != name

/-- The map with `name` set to `text`; an earlier text of the name is replaced. The place of the new
    entry is one of those it may take: it depends on the entries alone. -/
def insert (m : NameMap) (name text : String) : NameMap where
  entries := put (name, text) (m.others name)
  distinct := by
    refine ((put_perm _ _).map Prod.fst).nodup_iff.2 (List.nodup_cons.2 ⟨?_, ?_⟩)
    · intro hname
      obtain ⟨entry, hentry, rfl⟩ := List.mem_map.1 hname
      exact absurd (List.mem_filter.1 hentry).2 (by simp)
    · exact m.distinct.sublist (List.filter_sublist.map Prod.fst)

/-- The map of some entries, set from first to last. -/
def ofList (entries : List (String × String)) : NameMap :=
  entries.foldl (fun m (name, text) => m.insert name text) empty

/-- After an insertion the entries are the new one and those of other names. -/
theorem mem_insert {m : NameMap} {name text : String} {entry : String × String} :
    entry ∈ (m.insert name text).entries ↔
      entry = (name, text) ∨ (entry ∈ m.entries ∧ entry.1 ≠ name) := by
  refine (put_perm _ _).mem_iff.trans (List.mem_cons.trans (or_congr_right ?_))
  rw [others, List.mem_filter, bne_iff_ne]

/-- After setting a name, that name has the new text and every other one has what it had. -/
theorem get?_insert (m : NameMap) (name text other : String) :
    (m.insert name text).get? other = if other = name then some text else m.get? other := by
  ext found
  rw [get?_eq_some_iff, mem_insert]
  by_cases hname : other = name
  · subst hname
    rw [if_pos rfl, Option.some.injEq, Prod.mk.injEq]
    constructor
    · rintro (⟨-, rfl⟩ | ⟨-, hne⟩)
      · rfl
      · exact absurd rfl hne
    · rintro rfl
      exact Or.inl ⟨rfl, rfl⟩
  · rw [if_neg hname, get?_eq_some_iff]
    constructor
    · rintro (h | ⟨hmem, -⟩)
      · exact absurd (Prod.mk.inj h).1 hname
      · exact hmem
    · intro hmem
      exact Or.inr ⟨hmem, hname⟩

end NameMap

end Selectors
