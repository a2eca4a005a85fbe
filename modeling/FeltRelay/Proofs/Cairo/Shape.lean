import FeltRelay.Proofs.Cairo.Declared
import FeltRelay.Proofs.Cairo.Serde
import FeltRelay.Proofs.Entries

/-!
# The shapes of the types of a file

If no two types of a file have the same name and none has a reserved one, every type that the file
writes has the shape that stands in its declaration.
-/

namespace FeltRelay.Cairo

open FeltRelay.Schema

namespace File

def typeNames (f : File) : List String := f.enums.map (·.name) ++ f.structs.map (·.name)

/-- A type name means one declaration of the file and nothing else. -/
structure Resolvable (f : File) : Prop where
  distinct : f.typeNames.Nodup
  unreserved : ∀ name ∈ f.typeNames, name ∉ reserved

variable {f : File}

theorem names_items (f : File) :
    f.items.map (·.name) = (if f.maybe then ["Maybe"] else []) ++ f.typeNames := by
  have henums : (f.enums.map Variants.item).map (·.name) = f.enums.map (·.name) := List.map_map ..
  have hstructs : (f.structs.map Struct.item).map (·.name) = f.structs.map (·.name) :=
    List.map_map ..
  rw [items, List.map_append, List.map_append, henums, hstructs, typeNames, List.append_assoc]
  split <;> rfl

theorem nodup_names_items (h : f.Resolvable) : (f.items.map (·.name)).Nodup := by
  have hmaybe : "Maybe" ∉ f.typeNames := fun hmem => h.unreserved _ hmem (by decide)
  rw [names_items]
  split
  · exact List.nodup_cons.2 ⟨hmaybe, h.distinct⟩
  · exact h.distinct

theorem find?_items (h : f.Resolvable) {i : Item} (hi : i ∈ f.items) :
    f.items.find? (·.name = i.name) = some i :=
  Entries.find?_of_nodup (nodup_names_items h) hi

/-- A reserved name other than `Maybe` is not declared. -/
theorem find?_items_reserved (h : f.Resolvable) {name : String} (hname : name ∈ reserved)
    (hmaybe : name ≠ "Maybe") : f.items.find? (·.name = name) = none := by
  rw [List.find?_eq_none]
  intro i hi hdeclared
  have hmem : name ∈ f.items.map (·.name) :=
    List.mem_map.2 ⟨i, hi, by simpa using hdeclared⟩
  rw [names_items, List.mem_append] at hmem
  rcases hmem with hmem | hmem
  · split at hmem
    · exact hmaybe (List.mem_singleton.1 hmem)
    · cases hmem
  · exact h.unreserved name hmem hname

/-! ### Shapes -/

theorem shape?_scalar (h : f.Resolvable) (s : Scalar) :
    shape? f.items (.named (scalarName s)) = builtins.lookup (scalarName s) := by
  have hscalar : ∀ s ∈ Scalar.all, scalarName s ∈ reserved ∧ scalarName s ≠ "Maybe" := by decide
  obtain ⟨hmem, hne⟩ := hscalar s s.mem_all
  exact Cairo.shape?_builtin (find?_items_reserved h hmem hne)

theorem shape?_array (h : f.Resolvable) (t : TypeExpr) :
    shape? f.items (.generic "Array" t) = some (.array t) :=
  Cairo.shape?_array (find?_items_reserved h (by decide) (by decide)) t

theorem shape?_struct (h : f.Resolvable) {s : Struct} (hs : s ∈ f.structs) :
    shape? f.items (.named s.name) = some (.struct (s.members.map fun m => (m.1, m.2.expr))) := by
  have hitem : s.item ∈ f.items := List.mem_append_right _ (List.mem_map_of_mem hs)
  have hshape : s.item.shape? none = some (.struct s.item.members) :=
    congrArg (fun members => some (Shape.struct members)) (List.map_id s.item.members)
  exact (shape?_named (find?_items h hitem)).trans hshape

theorem shape?_variants (h : f.Resolvable) {e : Variants} (he : e ∈ f.enums) :
    shape? f.items (.named e.name) = some (.enum (e.variants.map fun v => (v, .unit))) := by
  have hitem : e.item ∈ f.items :=
    List.mem_append_left _ (List.mem_append_right _ (List.mem_map_of_mem he))
  have hshape : e.item.shape? none = some (.enum e.item.members) :=
    congrArg (fun members => some (Shape.enum members)) (List.map_id e.item.members)
  exact (shape?_named (find?_items h hitem)).trans hshape

theorem shape?_maybe (h : f.Resolvable) (hmaybe : f.maybe = true) (t : TypeExpr) :
    shape? f.items (.generic "Maybe" t) = some (.enum [("Absent", .unit), ("Present", t)]) := by
  have hitem : maybeItem ∈ f.items := by
    rw [items, hmaybe]
    exact List.mem_append_left _ (List.mem_append_left _ (List.mem_cons_self ..))
  exact shape?_generic (find?_items h hitem) t

end File

end FeltRelay.Cairo
