import PointsTo.Service

/-!
# Tables of stand-ins

A plugin that makes stand-ins of one kind keeps them by what they are made for and
by their type, so that asking again gives the same object, whatever container is
named the second time.
-/

namespace PointsTo

/-- Stand-ins of one kind, oldest first. -/
structure MockTable where
  kind : MockKind
  entries : List ((MockSite × JavaType) × ObjId)

namespace MockTable

/-- A table without entries. -/
def new (kind : MockKind) : MockTable := ⟨kind, []⟩

/-- The number of entries. -/
def size (t : MockTable) : Nat := t.entries.length

/-- There are no entries. -/
def isEmpty (t : MockTable) : Bool := t.entries.isEmpty

/-- The stand-in that was made for a site and a type. -/
def find? (t : MockTable) (site : MockSite) (type : JavaType) : Option ObjId :=
  t.entries.lookup (site, type)

/-- The stand-in for a site and a type, which is made if there is none yet. -/
def getOrCreate (t : MockTable) (site : MockSite) (type : JavaType)
    (container : Option MethodId) : Service (ObjId × MockTable) :=
  match t.find? site type with
  | some o => pure (o, t)
  | none => do
    let o ← Service.mock { kind := t.kind, site, type, container }
    return (o, { t with entries := t.entries ++ [((site, type), o)] })

/-- A stand-in that is there already costs no request. -/
theorem getOrCreate_of_find? {t : MockTable} {site : MockSite} {type : JavaType} {o : ObjId}
    (h : t.find? site type = some o) (container : Option MethodId) :
    t.getOrCreate site type container = pure (o, t) := by
  simp [getOrCreate, h]

end MockTable

end PointsTo
