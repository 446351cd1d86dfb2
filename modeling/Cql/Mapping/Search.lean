import Cql.Mapping.Memo

/-!
The search for the columns of an entity with a stack of the type names on its way. Each call looks
for its own type name on the stack, pushes it, and pops it again when all fields are done. Nothing
in a call says how deep the calls in it go.
-/

namespace Cql.Memo

/-- Computations with a stack that may fail or not end. A failure loses the stack, not the memo. -/
abbrev Searching := StateT (List String) (ExceptT Error (StateT (Logged Memo) Option))

namespace Searching

/-- A step on the memo, which always ends. -/
def step {α : Type} (step : Step Memo α) : Searching α :=
  fun stack => ExceptT.mk fun s => some (.ok ((step s).1, stack), (step s).2)

def endless {α : Type} : Searching α := fun _ => ExceptT.mk fun _ => none

end Searching

/-- The entries so far with those of the next field. What the field holds is searched by a call. -/
def extend (catalog : Catalog) (casing : Casing)
    (call : Entity → Searching (List (String × String))) (entries : List (String × String))
    (f : Field) : Searching (List (String × String)) :=
  match f.nested with
  | none => return entries ++ [(f.name, f.physical casing)]
  | some i =>
    match catalog[i]? with
    | none => return entries
    | some sub => do
      let tables ← Searching.step (tablesOf sub)
      let inner ← call sub
      return entries ++ inner.map (ColumnMap.qualify f.name (tables.get casing))

/-- The search where no more than so many calls stand in one another. One that needs more is taken
for one that does not end. -/
def search (catalog : Catalog) (casing : Casing) :
    Nat → Entity → Searching (List (String × String))
  | 0, _ => Searching.endless
  | depth + 1, e => do
    if e.typeName ∈ (← get) then throw (.cyclic ((← get) ++ [e.typeName]))
    else
      modify (· ++ [e.typeName])
      let entries ← (e.fields.filter (!·.isTransient)).foldlM
        (extend catalog casing (search catalog casing depth)) []
      modify List.dropLast
      return entries

end Cql.Memo
