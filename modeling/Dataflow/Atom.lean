/-! # Atoms and atom tables

  An atom is a symbolic constant. Atoms are handed out by tables: within one table
  a content has exactly one atom, so two atoms of a table are the same atom if and
  only if they have the same content. Atoms of different tables are different,
  whatever their contents.

  Each machine owns one table at a time. A collection replaces it by a table of the
  next generation, so a table is named by its owner and its generation.
-/

namespace Dataflow

/-! ### Names of machines and tables -/

/-- A machine, by its position among the machines of a session. -/
structure MachineId where
  /-- The position, from zero. -/
  index : Nat
  deriving DecidableEq

/-- An atom table: the machine that owns it and the number of collections before it. -/
structure TableId where
  /-- The machine that the table belongs to. -/
  owner : MachineId
  /-- How many tables the owner has given up before this one. -/
  generation : Nat
  deriving DecidableEq

/-! ### Atoms -/

/-- An atom: the table that made it, and its text. -/
structure Atom where
  /-- The table that handed the atom out. -/
  table : TableId
  /-- The characters of the atom. -/
  content : String
  deriving DecidableEq

/-- The machine that an atom belongs to. -/
def Atom.owner (a : Atom) : MachineId := a.table.owner

/-! ### Tables -/

/-- An atom table: its name and the contents it holds, each of them once. -/
structure AtomTable where
  id : TableId
  /-- The contents interned so far, the latest first. -/
  contents : List String := []
  deriving DecidableEq

namespace AtomTable

def size (t : AtomTable) : Nat := t.contents.length

/-- The atom with this content, if the table holds it. -/
def find? (t : AtomTable) (content : String) : Option Atom :=
  if content ∈ t.contents then some ⟨t.id, content⟩ else none

/-- The table with this content added, unless it is there already. -/
def insert (t : AtomTable) (content : String) : AtomTable :=
  if content ∈ t.contents then t else { t with contents := content :: t.contents }

/-- The atom with this content, and the table that holds it: an atom that is there already is
    found, and one that is not is made. -/
def intern (t : AtomTable) (content : String) : Atom × AtomTable :=
  match t.find? content with
  | some found => (found, t)
  | none => (⟨t.id, content⟩, { t with contents := content :: t.contents })

/-- The atom with these characters, and the table that holds it. -/
def internScalars (t : AtomTable) (content : List Char) : Atom × AtomTable :=
  t.intern (String.ofList content)

/-- The empty table that follows this one. -/
def successor (t : AtomTable) : AtomTable :=
  { id := { t.id with generation := t.id.generation + 1 } }

/-! ### What interning does to a table -/

/-- Whether it is found or made, the atom of a content is named by the table and the content. -/
theorem intern_eq (t : AtomTable) (content : String) :
    t.intern content = (⟨t.id, content⟩, t.insert content) := by
  unfold intern find? insert
  by_cases hm : content ∈ t.contents
  · simp [hm]
  · simp [hm]

@[simp] theorem insert_id (t : AtomTable) (content : String) : (t.insert content).id = t.id := by
  unfold insert; split <;> rfl

/-- Interning a content makes it a member and removes none. -/
@[simp] theorem mem_contents_insert (t : AtomTable) (content other : String) :
    other ∈ (t.insert content).contents ↔ other = content ∨ other ∈ t.contents := by
  unfold insert
  split
  · next h => exact ⟨.inr, fun either => either.elim (fun e => e ▸ h) fun member => member⟩
  · simp

/-- The contents of a table stay distinct. -/
theorem nodup_contents_insert {t : AtomTable} (h : t.contents.Nodup) (content : String) :
    (t.insert content).contents.Nodup := by
  unfold insert
  split
  · exact h
  · next hn => exact List.nodup_cons.mpr ⟨hn, h⟩

end AtomTable

end Dataflow
